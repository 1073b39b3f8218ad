import TypedPhp.Proofs.Print.File
import TypedPhp.Proofs.Program.References
import TypedPhp.Proofs.Read.FileRows
import TypedPhp.Proofs.Stmt.DumpRows

set_option autoImplicit false

/-!
# Lines of dumps in generated programs

The names of a built program are numbered, so they are ordinary and hold no line break, and neither
do the texts of its declarations. Every file of it therefore has its dumps on rows of their own, and
the number of a line tells the dump on it from all others of the file (`Program.dumps_apart`).
-/

namespace TypedPhp

open Print (StmtDumps)
open Read (isIdentifier)

/-! ## Characters of names and types -/

theorem OrdinaryName.newline_notMem {s : String} (h : OrdinaryName s) : '\n' ∉ s.toList :=
  fun hmem => absurd ((Read.Inert.identifier h.isIdentifier).legible _ hmem) (by decide)

namespace Ty

mutual

/-- The text of a type holds no line break if the names of its classes hold none. -/
theorem newline_notMem_text : ∀ {t : Ty}, (∀ c ∈ t.classes, '\n' ∉ c.name.toList) → '\n' ∉ t.text
  | .scalar k, _ => by cases k <;> decide
  | .object c, h => h c List.mem_cons_self
  | .union x y, h => by
      have hx := newline_notMem_text (t := x) fun c hc => h c (List.mem_append_left _ hc)
      have hy := newline_notMem_text (t := y) fun c hc => h c (List.mem_append_right _ hc)
      exact List.not_mem_append hx (List.not_mem_cons_of_ne_of_not_mem (by decide) hy)
  | .nullable x, h => by
      have hx := newline_notMem_text (t := x) h
      have htext : (nullable x).text =
          if x.takesQuestionMark then '?' :: x.text else x.text ++ "|null".toList := rfl
      rw [htext]
      split
      · exact List.not_mem_cons_of_ne_of_not_mem (by decide) hx
      · exact List.not_mem_append hx (by decide)
  | .array e, h => by
      have he := newline_notMem_text (t := e) h
      have htext : (array e).text =
          if e.needsParens then '(' :: (e.text ++ ")[]".toList) else e.text ++ "[]".toList := rfl
      rw [htext]
      split
      · exact List.not_mem_cons_of_ne_of_not_mem (by decide) (List.not_mem_append he (by decide))
      · exact List.not_mem_append he (by decide)
  | .tuple es, h => by
      have hes : '\n' ∉ textList es := newline_notMem_textList h
      exact List.not_mem_append (List.not_mem_append (by decide) hes) (by decide)
  | .callable _, _ => show '\n' ∉ "callable".toList by decide
  | .enum ⟨k, _⟩, _ => by cases k <;> exact newline_notMem_text (t := .scalar _) nofun

/-- The texts of several types hold no line break if the names of their classes hold none. -/
theorem newline_notMem_textList : ∀ {ts : List Ty},
    (∀ c ∈ classesList ts, '\n' ∉ c.name.toList) → '\n' ∉ textList ts
  | [], _ => List.not_mem_nil
  | [t], h => newline_notMem_text (t := t) fun c hc => h c (List.mem_append_left _ hc)
  | t :: u :: ts, h => by
      have ht := newline_notMem_text (t := t) fun c hc => h c (List.mem_append_left _ hc)
      have hts : '\n' ∉ textList (u :: ts) :=
        newline_notMem_textList fun c hc => h c (List.mem_append_right _ hc)
      exact List.not_mem_append (List.not_mem_append ht (by decide)) hts

end

theorem Within.newline_notMem {names : List String} {t : Ty} (h : t.Within names)
    (hnames : ∀ name ∈ names, OrdinaryName name) : '\n' ∉ t.text :=
  newline_notMem_text fun c hc => (hnames _ (List.mem_of_getElem? (h.known c hc))).newline_notMem

end Ty

/-! ## Names of built programs -/

/-- What is named by a numbering has an ordinary name if the numbering gives such names. -/
theorem OrdinaryName.of_map_eq {α : Type} {name : α → String} {numbered : Nat → String}
    {xs : List α} {n : Nat} (h : xs.map name = (List.range n).map numbered)
    (hnumbered : ∀ k, OrdinaryName (numbered k)) : ∀ x ∈ xs, OrdinaryName (name x) := by
  intro x hx
  obtain ⟨k, hk⟩ := exists_name_of_map_eq h x hx
  rw [hk]
  exact hnumbered k

/-- The name of a library function is ordinary. -/
theorem libFuncName_ordinary (i k : Nat) : OrdinaryName (libFuncName i k) := by
  have hlib : isIdentifier ("lib" ++ toString i) = true :=
    Read.isIdentifier_append (by decide) fun c hc => Read.identChar_of_mem_toString hc
  have hrest : "_f".toList.all Read.identChar = true := by decide
  exact .numbered (Read.isIdentifier_append hlib (List.all_eq_true.1 hrest)) k

namespace Program.Parts

variable {config : Config} {t : SymbolTable} {q : Parts}

/-- A class of the table of a built program is drawn. -/
theorem Built.drawnClass (h : q.Built config t) {i : Nat} {type : ClassType}
    (hget : t.classes[i]? = some type) :
    type.Drawn t.classNames ((List.range i).map .numbered) (.numbered i) := by
  have hname := SymbolTable.classNames_of_getElem? hget
  obtain ⟨n, -, -, hbuilt, -, -⟩ := h.declaresClass (c := ⟨i, type.name⟩) hname
  obtain ⟨hdrawn, hget', -, -⟩ := hbuilt
  rw [hget] at hget'
  obtain rfl := Option.some.inj hget'
  exact ⟨hdrawn.name, hdrawn.fields, hdrawn.fieldNames, hdrawn.methods, hdrawn.names⟩

/-- The names in the table of a built program are ordinary. -/
theorem Built.ordinary (h : q.Built config t) : t.Ordinary where
  funcs := by
    intro f hf
    rcases h.known f hf with hbuiltin | hlib | ⟨i, type, -, hget, hmem⟩
    · have hall : ∀ f ∈ Catalog.builtins, OrdinaryName f.name := by decide
      exact hall f hbuiltin
    · obtain ⟨d, hd, rfl⟩ := List.mem_map.1 hlib
      obtain ⟨i, k, hname⟩ := h.libName hd
      rw [hname]
      exact libFuncName_ordinary i k
    · obtain ⟨n, hn⟩ := (h.drawnClass hget).names
      exact .of_map_eq hn (.numbered (by decide)) f hmem
  classes := by
    intro name hname
    rw [h.classNames] at hname
    obtain ⟨i, -, rfl⟩ := List.mem_map.1 hname
    exact .numbered (by decide) i
  fields := by
    intro c hc f hf
    obtain ⟨i, hget⟩ := List.mem_iff_getElem?.1 hc
    obtain ⟨n, hn⟩ := (h.drawnClass hget).fieldNames
    exact .of_map_eq hn (.numbered (by decide)) f hf

end Program.Parts

/-! ## Declarations of built programs -/

section Declarations

variable {config : Config} {t : SymbolTable} {q : Program.Parts}

/-- The documentation of a drawn function holds no line break. -/
theorem FuncType.Drawn.docTags_newline {f : FuncType} (hf : f.Drawn t.classNames)
    (hnames : t.Ordinary) :
    ∀ tag ∈ f.docTags, '\n' ∉ tag.name.toList ∧ '\n' ∉ tag.value.toList := by
  have hwithin : f.result.Within t.classNames := hf.result_within
  have hresult := hwithin.newline_notMem hnames.classes
  intro tag htag
  rcases List.mem_append.1 htag with htag | htag
  · obtain ⟨p, hp, rfl⟩ := List.mem_map.1 htag
    have hparam : '\n' ∉ "@param".toList := by decide
    refine ⟨hparam, ?_⟩
    obtain ⟨n, hn⟩ := hf.names
    have hname : OrdinaryName p.name := .of_map_eq hn (.numbered (by decide)) p hp
    simp only [String.toList_append, String.toList_ofList]
    exact List.not_mem_append (List.not_mem_append
      ((hf.within p hp).newline_notMem hnames.classes) (by decide)) hname.newline_notMem
  · obtain rfl := List.mem_singleton.1 htag
    have hreturn : '\n' ∉ "@return".toList := by decide
    refine ⟨hreturn, ?_⟩
    rw [String.toList_ofList]
    exact hresult

/-- A built function with an ordinary name stands on rows. -/
theorem FuncDecl.Built.onRows (ht : t.Ready) (hnames : t.Ordinary) {isGuarded : Bool}
    {d : FuncDecl} (h : d.Built config t isGuarded) (hname : OrdinaryName d.type.name) :
    d.OnRows where
  name := hname.newline_notMem
  params := by
    intro p hp
    obtain ⟨n, hn⟩ := h.drawn.names
    exact (OrdinaryName.of_map_eq hn (.numbered (by decide)) p hp).newline_notMem
  defaults := fun p hp x hx => ((h.drawn.params p hp).default x hx).constant.ordinary
  tags := by
    rw [h.tags]
    exact h.drawn.docTags_newline hnames
  body := h.dumps ht hnames

/-- The names in what a constructor of a drawn class does are ordinary. -/
theorem ClassType.Drawn.creates_ordinary {i : Nat} {type : ClassType}
    (h : type.Drawn t.classNames ((List.range i).map .numbered) (.numbered i)) {s : Node}
    (hs : s.Creates type (.numbered i)) : s.Every Node.Ordinary := by
  obtain @⟨f, target, hf, hty, hinit⟩ := hs
  obtain ⟨n, hn⟩ := h.fieldNames
  have hfield : OrdinaryName f.name := .of_map_eq hn (.numbered (by decide)) f hf
  obtain ⟨j, -, rfl⟩ := List.mem_map.1 ((h.fields f hf).mem_earlier hty hinit)
  have hclass : OrdinaryName (className j) := .numbered (by decide) j
  refine .two (.of_none rfl) (.one (.of_name rfl hfield) ?_) ?_
  · exact Node.var_ordinary (Or.inl rfl) _
  · exact .leaf (.of_name rfl hclass)

/-- A constructor of a built class stands on rows. -/
theorem ClassType.constructor_onRows {i : Nat} {type : ClassType}
    (h : type.Drawn t.classNames ((List.range i).map .numbered) (.numbered i)) {d : FuncDecl}
    (hd : d ∈ type.constructors (.numbered i)) : d.OnRows := by
  obtain ⟨htype, hcreates⟩ := ClassType.constructors_create hd
  have htags : d.tags = [] := by
    unfold ClassType.constructors at hd
    split at hd
    · cases hd
    · rw [List.mem_singleton.1 hd]
  have hname : '\n' ∉ "__construct".toList := by decide
  refine ⟨?_, ?_, ?_, ?_, fun s hs => ?_⟩
  · rw [htype]
    exact hname
  · rw [htype]
    exact nofun
  · rw [htype]
    exact nofun
  · rw [htags]
    exact nofun
  · have hcreation := hcreates s hs
    refine .expr ?_ (h.creates_ordinary hcreation)
    obtain ⟨-, -, -⟩ := hcreation
    rfl

/-- A field of a built class stands on rows. -/
theorem Field.Drawn.onRows {i : Nat} {f : Field} (h : f.Drawn ((List.range i).map .numbered))
    (hname : OrdinaryName f.name) : f.OnRows := by
  refine ⟨hname.newline_notMem, ?_, fun x hx => (h.init_constant hx).ordinary⟩
  cases h with
  | value _ hwithin => exact hwithin.newline_notMem nofun
  | object hc =>
      obtain ⟨j, -, rfl⟩ := List.mem_map.1 hc
      have hclass : OrdinaryName (className j) := .numbered (by decide) j
      exact hclass.newline_notMem

/-- A built class stands on rows. -/
theorem RootNode.ClassBuilt.onRows (ht : t.Ready) (hnames : t.Ordinary) {i : Nat} {n : RootNode}
    (h : n.ClassBuilt config t i) : n.OnRows := by
  obtain ⟨hdrawn, -, hmethods, htypes⟩ := h
  refine .classDecl ?_ (fun f hf => ?_) fun d hd => ?_
  · have hclass : OrdinaryName (className i) := .numbered (by decide) i
    rw [hdrawn.name]
    exact hclass.newline_notMem
  · obtain ⟨n, hn⟩ := hdrawn.fieldNames
    exact (hdrawn.fields f hf).onRows (.of_map_eq hn (.numbered (by decide)) f hf)
  · rcases List.mem_append.1 hd with hd | hd
    · exact ClassType.constructor_onRows hdrawn hd
    · obtain ⟨n, hn⟩ := hdrawn.names
      have hmem := List.mem_map_of_mem (f := (·.type)) hd
      rw [htypes] at hmem
      exact (hmethods d hd).onRows ht hnames (.of_map_eq hn (.numbered (by decide)) d.type hmem)

/-- A call of a function of the main file, with or without its dump, has ordinary names. -/
theorem EntryCall.ordinary (ht : t.Ready) (hnames : t.Ordinary) {env : Env}
    (henv : env.symbols = t) (hvisible : env.scope.visible = []) {b : Nat} {f : FuncType}
    (hname : OrdinaryName f.name) (hwithin : ∀ p ∈ f.params, p.type.Within t.classNames) {n : Node}
    (h : EntryCall env b f n) : ∃ x : Node, x.op = .call ∧ x.Every Node.Ordinary ∧
      (n = .call "fuzz_dump" [.name "__LINE__", x] ∨ n = x) := by
  subst henv
  have hadmits : env.Admits Node.Ordinary := by
    refine Env.admits_ordinary hnames ?_
    rw [hvisible]
    exact nofun
  have hcall : ∀ args, Passes env b f args →
      ((Node.call f.name args).withType f.result).Every Node.Ordinary := by
    intro args hargs
    refine .node (.of_none rfl)
      (List.forall_mem_cons.2 ⟨.leaf (.of_name rfl hname), fun x hx => ?_⟩)
    obtain ⟨p, hzip⟩ := exists_mem_zip hargs.notMore hx
    exact (hargs.values p x hzip).every ht.closed hadmits (hwithin p (List.of_mem_zip hzip).1)
  cases h with
  | dump _ hargs => exact ⟨_, rfl, hcall _ hargs, Or.inl rfl⟩
  | call _ hargs => exact ⟨_, rfl, hcall _ hargs, Or.inr rfl⟩

/-- The name of a function of the main file of a built program is ordinary. -/
theorem Program.Parts.Built.funcName_ordinary (h : q.Built config t) {d : FuncDecl}
    (hd : d ∈ q.funcs) : OrdinaryName d.type.name := by
  obtain ⟨i, hi⟩ := h.funcName hd
  rw [hi]
  exact .numbered (by decide) i

/-- What the function that calls the others does has ordinary names, the dumps aside. -/
theorem Program.Parts.Built.entryCall_ordinary (h : q.Built config t) (ht : t.Ready) {s : Node}
    (hs : s ∈ q.entry.body) : ∃ x : Node, x.op = .call ∧ x.Every Node.Ordinary ∧
      (s = .call "fuzz_dump" [.name "__LINE__", x] ∨ s = x) := by
  obtain ⟨m, hm, env, b, hsymbols, hvisible, -, hcall⟩ := h.entry.entryCall hs
  exact hcall.ordinary ht h.ordinary hsymbols hvisible (h.funcName_ordinary hm)
    (h.funcs m hm).1.drawn.within

/-- The function that calls the others stands on rows. -/
theorem Program.Parts.Built.entry_onRows (h : q.Built config t) (ht : t.Ready) :
    q.entry.OnRows := by
  refine ⟨?_, ?_, ?_, ?_, fun s hs => ?_⟩
  · rw [h.entry.type]
    decide
  · rw [h.entry.type]
    exact nofun
  · rw [h.entry.type]
    exact nofun
  · rw [h.entry.tags, h.entry.type]
    decide
  · obtain ⟨x, hop, hx, rfl | rfl⟩ := h.entryCall_ordinary ht hs
    · exact .dump hx
    · refine .expr ?_ hx
      rw [hop]
      rfl

/-- The name of a file that a built program requires holds no line break. -/
theorem Program.Parts.required_newline {path : String}
    (h : path ∈ Support.fileName :: (libraries q.classes q.libs).map (·.name)) :
    '\n' ∉ path.toList := by
  rcases List.mem_cons.1 h with rfl | h
  · decide
  · obtain ⟨file, hfile, rfl⟩ := List.mem_map.1 h
    obtain ⟨⟨ds, i⟩, -, rfl⟩ := List.mem_map.1 hfile
    have hlib : OrdinaryName ("lib" ++ toString i) := .numbered (by decide) i
    have hfile : '\n' ∉ (libFileName i).toList := by
      rw [libFileName, String.toList_append]
      exact List.not_mem_append hlib.newline_notMem (by decide)
    exact hfile

/-- Every top-level node of a built program stands on rows. -/
theorem Program.Parts.Built.onRows (h : q.Built config t) (ht : t.Ready) {nodes : List RootNode}
    {r : RootNode} (hr : q.Holds nodes r) : r.OnRows := by
  have hnames := h.ordinary
  cases hr with
  | require hpath => exact .require (Program.Parts.required_newline hpath)
  | start =>
      have hmain : OrdinaryName "main" := by decide
      exact .stmt (.expr rfl (.one (.of_none rfl) (.leaf (.of_name rfl hmain))))
  | ofClass hclass =>
      obtain ⟨i, hbuilt⟩ := h.ofClass hclass
      exact hbuilt.onRows ht hnames
  | library hlib =>
      obtain ⟨i, k, hname⟩ := h.libName hlib
      refine .func ((h.ofLibrary hlib).onRows ht hnames ?_)
      rw [hname]
      exact libFuncName_ordinary i k
  | func hfunc => exact .func ((h.funcs _ hfunc).1.onRows ht hnames (h.funcName_ordinary hfunc))
  | entry _ => exact .func (h.entry_onRows ht)

end Declarations

/-! ## Lines of dumps -/

/-- Only a line break has the byte of one in its encoding. -/
theorem Read.eq_newline_of_byte {c : Char} (h : 10 ∈ String.utf8EncodeChar c) : c = '\n' := by
  by_cases hprintable : Read.Printable c
  · exact absurd (Read.not_isControl_of_char hprintable 10 h) (by decide)
  · -- A control character is a single byte, its number.
    have hcontrol : c.toNat < 0x20 ∨ c.toNat = 0x7f := not_not.1 hprintable
    have hsmall : c.toNat < 256 := by omega
    rw [utf8EncodeChar_ascii (by omega), List.mem_singleton] at h
    have hnumber : c.toNat = 10 := by
      have hbyte := congrArg UInt8.toNat h
      rw [UInt8.toNat_ofNat_of_lt' hsmall] at hbyte
      exact hbyte.symm
    exact Char.toNat_inj.1 hnumber

/-- The text of an expression holds no line feed if its names hold no line break, and no other
control byte if they hold no control character. -/
structure Print.KeepsRow (n : Node) (text : List Char) : Prop where
  newline : (∀ m ∈ n.subterms, ∀ s, m.ident? = some s → '\n' ∉ s.toList) →
    10 ∉ text.flatMap String.utf8EncodeChar
  control : (∀ m ∈ n.subterms, ∀ s, m.ident? = some s → Read.Legible s.toList) →
    ∀ b ∈ text.flatMap String.utf8EncodeChar, Read.isControl b = false

/-- The text of every expression keeps to its row. -/
theorem Print.expr_keepsRow {n : Node} {text : List Char} (h : Print.expr n = .ok text) :
    Print.KeepsRow n text := by
  constructor
  · intro hnames hbyte
    obtain ⟨c, hc, hbyte⟩ := List.mem_flatMap.1 hbyte
    obtain rfl := Read.eq_newline_of_byte hbyte
    obtain ⟨m, hm, s, hs, hmem⟩ := Print.exists_name_of_control h hc (by decide)
    exact hnames m hm s hs hmem
  · intro hnames b hb
    obtain ⟨c, hc, hb⟩ := List.mem_flatMap.1 hb
    refine Read.not_isControl_of_char (fun hcontrol => ?_) b hb
    obtain ⟨m, hm, s, hs, hmem⟩ := Print.exists_name_of_control h hc (not_not.2 hcontrol)
    exact hnames m hm s hs c hmem hcontrol

/-- The dumps in a file of a built program are told apart by the numbers of their lines. -/
theorem Program.Parts.Built.tellsDumps {config : Config} {t : SymbolTable} {q : Program.Parts}
    (h : q.Built config t) (ht : t.Ready) {f : File} (hf : f ∈ q.program.files) :
    ∃ contents, Print.file f = .ok contents ∧ Read.TellsDumps contents f.dumps := by
  have hbuilt : q.program.Built config t := ⟨q, h, rfl⟩
  obtain ⟨body, hbody⟩ := Print.rootNodes_succeeds false fun n hn =>
    (hbuilt.node f hf n hn).written ht
  have hfile : Print.file f = .ok (String.ofList ("<?php".toList ++ body ++ ['\n'])) := by
    rw [Print.file, Print.finish, hbody]
    rfl
  refine ⟨_, hfile, .of_rows (Print.file_dumps (fun n hn => ?_) hfile)⟩
  exact h.onRows ht (q.holds f hf n hn)

/-- Two dumps never share a line. The text of an expression holds no line feed unless a name in
it does, so every file of a generated program has each of its dumps alone on a line, whatever the
configuration and whatever the source yields. -/
theorem Program.dumps_apart {ρ : Type} [WordSource ρ] (source : ρ) (config : Config)
    (attempts : Nat) {p : Program} {g' : Generator ρ}
    (h : Build.program (Generator.start source config attempts) = .ok (p, g')) :
    (∀ n text, Print.expr n = .ok text → Print.KeepsRow n text) ∧
      ∀ f ∈ p.files, ∃ contents, Print.file f = .ok contents ∧
        Read.TellsDumps contents f.dumps := by
  have hcfg : config.Tolerated fun _ => True := Config.tolerated_of_all fun _ => trivial
  obtain ⟨⟨q, hq, rfl⟩, ht⟩ := (Build.program_runs source hcfg trivial attempts).of_ok h
  exact ⟨fun n text htext => Print.expr_keepsRow htext, fun f hf => hq.tellsDumps ht hf⟩

/-- A small program with two dumps in one file. -/
theorem Program.dumps_apart_two : ∃ p : Program, (∃ f ∈ p.files, f.dumps.length = 2) ∧
    (∀ n text, Print.expr n = .ok text → Print.KeepsRow n text) ∧
      ∀ f ∈ p.files, ∃ contents, Print.file f = .ok contents ∧
        Read.TellsDumps contents f.dumps := by
  obtain ⟨p, g', hrun, hdumps⟩ := Build.program_of_check ⟨[], 0⟩ .small 10
    (·.files.any (·.dumps.length == 2)) (by decide +kernel)
  obtain ⟨f, hf, htwo⟩ := List.any_eq_true.1 hdumps
  exact ⟨p, ⟨f, hf, eq_of_beq htwo⟩, Program.dumps_apart _ _ _ hrun⟩

end TypedPhp
