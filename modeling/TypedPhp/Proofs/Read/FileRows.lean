import TypedPhp.Print.File
import TypedPhp.Proofs.Read.DumpRows

set_option autoImplicit false

/-!
# Rows of dumps in files

A file is put together from declarations whose names, types and constants stand on single rows, and
from statements. Where the statements have their dumps on rows of their own, the rows of the file
that begin with a dump are the dumps in it, in order (`Print.file_dumps`), so the numbers of their
lines tell the dumps of a file apart (`Read.TellsDumps`).
-/

namespace TypedPhp

open Print (lineBreak ok_of_bind StmtDumps)
open Read (DumpRows beginsDump)

/-! ## Dumps in files -/

/-- The trees in a function: the defaults of its parameters and its statements. -/
def FuncDecl.trees (d : FuncDecl) : List Node := d.type.params.filterMap (·.default) ++ d.body

/-- The trees in a top-level node. -/
def RootNode.trees : RootNode → List Node
  | require _ => []
  | stmt n => [n]
  | func d => d.trees
  | classDecl type methods => type.fields.filterMap (·.init) ++ methods.flatMap FuncDecl.trees

/-- The dumps in a file, in the order of its text. -/
def File.dumps (f : File) : List Node := Node.dumps (f.nodes.flatMap RootNode.trees)

/-! ## Declarations on rows -/

/-- The texts of a function before its body hold no line break, and its statements have their dumps
on rows of their own. -/
structure FuncDecl.OnRows (d : FuncDecl) : Prop where
  name : '\n' ∉ d.type.name.toList
  params : ∀ p ∈ d.type.params, '\n' ∉ p.name.toList
  defaults : ∀ p ∈ d.type.params, ∀ x, p.default = some x → x.Every Node.Ordinary
  tags : ∀ tag ∈ d.tags, '\n' ∉ tag.name.toList ∧ '\n' ∉ tag.value.toList
  body : ∀ s ∈ d.body, StmtDumps s

/-- The texts of a field hold no line break. -/
structure Field.OnRows (f : Field) : Prop where
  name : '\n' ∉ f.name.toList
  type : '\n' ∉ f.type.text
  init : ∀ x, f.init = some x → x.Every Node.Ordinary

/-- The texts of a top-level node hold no line break where it has no rows of its own. -/
inductive RootNode.OnRows : RootNode → Prop where
  | require {path : String} : '\n' ∉ path.toList → OnRows (.require path)
  | stmt {n : Node} : StmtDumps n → OnRows (.stmt n)
  | func {d : FuncDecl} : d.OnRows → OnRows (.func d)
  | classDecl {type : ClassType} {methods : List FuncDecl} : '\n' ∉ type.name.toList →
      (∀ f ∈ type.fields, f.OnRows) → (∀ d ∈ methods, d.OnRows) → OnRows (.classDecl type methods)

/-! ## Texts of declarations -/

namespace Print

variable {indent : Nat} {text : List Char}

/-- The text of an initial value holds no line break. -/
theorem newline_notMem_initial {x? : Option Node} (hx : ∀ x, x? = some x → x.Every Node.Ordinary)
    (h : initial x? = .ok text) : '\n' ∉ text := by
  cases x? with
  | none =>
      obtain rfl := Except.ok.inj h
      exact List.not_mem_nil
  | some x =>
      obtain ⟨value, hvalue, h⟩ := ok_of_bind h
      obtain rfl := Except.ok.inj h
      exact List.not_mem_append (by decide) (newline_notMem_of_ordinary (hx x rfl) hvalue)

/-- The text of a parameter list holds no line break. -/
theorem newline_notMem_params {ps : List Param} (hnames : ∀ p ∈ ps, '\n' ∉ p.name.toList)
    (hdefaults : ∀ p ∈ ps, ∀ x, p.default = some x → x.Every Node.Ordinary)
    (h : params ps = .ok text) : '\n' ∉ text := by
  refine fun hmem => commaList_forall (R := (· ≠ '\n')) ?_ (fun y hy c hc heq => ?_) h _ hmem rfl
  · rintro c hc rfl
    exact absurd hc (by decide)
  · obtain ⟨p, hp, hy⟩ := List.mem_map.1 hy
    obtain ⟨value, hvalue, hy⟩ := ok_of_bind hy
    obtain rfl := Except.ok.inj hy
    have hvalue := newline_notMem_initial (hdefaults p hp) hvalue
    have hparam : '\n' ∉ ['$'] ++ (p.name.toList ++ value) :=
      List.not_mem_append (by decide) (List.not_mem_append (hnames p hp) hvalue)
    exact hparam (heq ▸ hc)

/-- There are no dumps in the lines of a documentation comment. -/
theorem docTags_dumps (indent : Nat) {tags : List DocTag}
    (htags : ∀ tag ∈ tags, '\n' ∉ tag.name.toList ∧ '\n' ∉ tag.value.toList) :
    DumpRows (tags.flatMap fun tag =>
      lineBreak indent ++ " * ".toList ++ tag.name.toList ++ ' ' :: tag.value.toList) [] := by
  induction tags with
  | nil => exact .nil
  | cons tag tags ih =>
      obtain ⟨hname, hvalue⟩ := htags tag List.mem_cons_self
      have hrow : '\n' ∉ " * ".toList ++ (tag.name.toList ++ ([' '] ++ tag.value.toList)) :=
        List.not_mem_append (by decide)
          (List.not_mem_append hname (List.not_mem_append (by decide) hvalue))
      have hfirst : DumpRows (lineBreak indent ++
          (" * ".toList ++ (tag.name.toList ++ ([' '] ++ tag.value.toList)))) [] := .row hrow rfl
      have hall := hfirst.append (ih fun tag htag => htags tag (List.mem_cons_of_mem _ htag))
      simpa using hall

/-- There are no dumps in a documentation comment. -/
theorem docComment_dumps {tags : List DocTag}
    (htags : ∀ tag ∈ tags, '\n' ∉ tag.name.toList ∧ '\n' ∉ tag.value.toList) :
    DumpRows (docComment indent tags) [] := by
  unfold docComment
  split
  · exact .nil
  · have hopen : DumpRows (lineBreak indent ++ "/**".toList) [] := .row (by decide) (by decide)
    have hclose : DumpRows (lineBreak indent ++ " */".toList) [] := .row (by decide) (by decide)
    have hall := (hopen.append (docTags_dumps indent htags)).append hclose
    simpa using hall

/-- The rows of a function that begin with a dump are the dumps in it. -/
theorem func_dumps {d : FuncDecl} (hd : d.OnRows) {isMethod : Bool}
    (h : func indent isMethod d = .ok text) : DumpRows text (Node.dumps d.trees) := by
  obtain ⟨ps, hps, h⟩ := ok_of_bind h
  obtain ⟨body, hbody, h⟩ := ok_of_bind h
  obtain rfl := Except.ok.inj h
  have hdumps : Node.dumps d.trees = Node.dumps d.body := by
    rw [FuncDecl.trees, Node.dumps_append, Node.dumps_of_ordinary, List.nil_append]
    intro x hx
    obtain ⟨p, hp, hx⟩ := List.mem_filterMap.1 hx
    exact hd.defaults p hp x hx
  have hparams := newline_notMem_params hd.params hd.defaults hps
  have hrest : '\n' ∉ d.type.name.toList ++ (['('] ++ (ps ++ ") \x7b".toList)) :=
    List.not_mem_append hd.name
      (List.not_mem_append (by decide) (List.not_mem_append hparams (by decide)))
  -- A method and a function differ in the words before the name only.
  have hrows : ∀ keyword : List Char, '\n' ∉ keyword → beginsDump (keyword ++
      (d.type.name.toList ++ (['('] ++ (ps ++ ") \x7b".toList)))) = false →
      DumpRows (docComment indent d.tags ++ lineBreak indent ++ keyword ++ d.type.name.toList ++
        '(' :: (ps ++ ") \x7b".toList ++ body ++ lineBreak indent ++ ['\x7d']))
        (Node.dumps d.body) := by
    intro keyword hkeyword hword
    have hcomment : DumpRows (docComment indent d.tags) [] := docComment_dumps hd.tags
    have henclosed : DumpRows (lineBreak indent ++
        (keyword ++ (d.type.name.toList ++ (['('] ++ (ps ++ ") \x7b".toList)))) ++
        (body ++ (lineBreak indent ++ ['\x7d']))) (Node.dumps d.body) :=
      (lines_dumps hd.body hbody).enclosed (List.not_mem_append hkeyword hrest) hword (by decide)
        (by decide)
    have hall := hcomment.append henclosed
    simpa using hall
  rw [hdumps]
  cases isMethod with
  | false => exact hrows "function ".toList (by decide) rfl
  | true => exact hrows "public function ".toList (by decide) rfl

/-- There are no dumps among the fields of a class. -/
theorem fields_dumps {fs : List Field} (hfs : ∀ f ∈ fs, f.OnRows)
    (h : fields indent fs = .ok text) : DumpRows text [] := by
  induction fs generalizing text with
  | nil =>
      obtain rfl := Except.ok.inj h
      exact .nil
  | cons f fs ih =>
      obtain ⟨value, hvalue, h⟩ := ok_of_bind h
      obtain ⟨rest, hrest, h⟩ := ok_of_bind h
      obtain rfl := Except.ok.inj h
      have hf := hfs f List.mem_cons_self
      have hvalue := newline_notMem_initial hf.init hvalue
      have hcomment : DumpRows
          (lineBreak indent ++ ("/** @var ".toList ++ (f.type.text ++ " */".toList))) [] :=
        .row (List.not_mem_append (by decide) (List.not_mem_append hf.type (by decide))) rfl
      have hfield : '\n' ∉ " $".toList ++ (f.name.toList ++ (value ++ [';'])) :=
        List.not_mem_append (by decide)
          (List.not_mem_append hf.name (List.not_mem_append hvalue (by decide)))
      have hrow : DumpRows (lineBreak indent ++ (f.visibility.text.toList ++
          (" $".toList ++ (f.name.toList ++ (value ++ [';']))))) [] := by
        cases f.visibility with
        | publicMember => exact .row (List.not_mem_append (by decide) hfield) rfl
        | privateMember => exact .row (List.not_mem_append (by decide) hfield) rfl
      have hall := (hcomment.append hrow).append
        (ih (fun f hf => hfs f (List.mem_cons_of_mem _ hf)) hrest)
      simpa using hall

theorem blank_dumps : DumpRows ['\n'] [] := by
  have hrow : DumpRows (lineBreak 0 ++ []) [] := .row List.not_mem_nil rfl
  exact hrow

/-- The rows of the methods of a class. -/
theorem methods_dumps {ds : List FuncDecl} (hds : ∀ d ∈ ds, d.OnRows)
    (h : methods indent ds = .ok text) :
    DumpRows text (Node.dumps (ds.flatMap FuncDecl.trees)) := by
  induction ds generalizing text with
  | nil =>
      obtain rfl := Except.ok.inj h
      exact .nil
  | cons d ds ih =>
      obtain ⟨first, hfirst, h⟩ := ok_of_bind h
      obtain ⟨rest, hrest, h⟩ := ok_of_bind h
      obtain rfl := Except.ok.inj h
      rw [List.flatMap_cons, Node.dumps_append]
      have hrest := ih (fun d hd => hds d (List.mem_cons_of_mem _ hd)) hrest
      exact blank_dumps.append ((func_dumps (hds d List.mem_cons_self) hfirst).append hrest)

/-- The rows of a top-level node that begin with a dump are the dumps in it. -/
theorem rootNode_dumps {n : RootNode} (hn : n.OnRows) (h : rootNode n = .ok text) :
    DumpRows text (Node.dumps n.trees) := by
  cases hn with
  | @require path hpath =>
      obtain rfl := Except.ok.inj h
      have hrow : '\n' ∉ "require_once __DIR__ . '/".toList ++ (path.toList ++ "';".toList) :=
        List.not_mem_append (by decide) (List.not_mem_append hpath (by decide))
      have hall : DumpRows (lineBreak 0 ++
        ("require_once __DIR__ . '/".toList ++ (path.toList ++ "';".toList))) [] := .row hrow rfl
      rw [RootNode.trees, Node.dumps_nil]
      simpa using hall
  | stmt hn =>
      obtain ⟨x, hx, h⟩ := ok_of_bind h
      obtain rfl := Except.ok.inj h
      exact hn 0 x hx
  | func hd => exact func_dumps hd h
  | @classDecl type methods hname hfields hmethods =>
      obtain ⟨fieldText, hfieldText, h⟩ := ok_of_bind h
      obtain ⟨methodText, hmethodText, h⟩ := ok_of_bind h
      obtain rfl := Except.ok.inj h
      -- The initial values of fields hold no dumps, so those of the methods are all.
      have hdumps : Node.dumps (RootNode.classDecl type methods).trees =
          [] ++ Node.dumps (methods.flatMap FuncDecl.trees) := by
        rw [RootNode.trees, Node.dumps_append, Node.dumps_of_ordinary]
        intro x hx
        obtain ⟨f, hf, hx⟩ := List.mem_filterMap.1 hx
        exact (hfields f hf).init x hx
      have hfirst : '\n' ∉ "class ".toList ++ (type.name.toList ++ " \x7b".toList) :=
        List.not_mem_append (by decide) (List.not_mem_append hname (by decide))
      have hmembers := (fields_dumps hfields hfieldText).append (methods_dumps hmethods hmethodText)
      have hall : DumpRows (lineBreak 0 ++
          ("class ".toList ++ (type.name.toList ++ " \x7b".toList)) ++
          (fieldText ++ methodText ++ (lineBreak 0 ++ ['\x7d']))) _ :=
        hmembers.enclosed hfirst rfl (by decide) (by decide)
      rw [hdumps]
      simpa using hall

/-- The rows of top-level nodes and of the blank rows between them. -/
theorem rootNodes_dumps {ns : List RootNode} {afterRequire : Bool} (hns : ∀ n ∈ ns, n.OnRows)
    (h : rootNodes afterRequire ns = .ok text) :
    DumpRows text (Node.dumps (ns.flatMap RootNode.trees)) := by
  induction ns generalizing afterRequire text with
  | nil =>
      obtain rfl := Except.ok.inj h
      exact .nil
  | cons n ns ih =>
      obtain ⟨first, hfirst, h⟩ := ok_of_bind h
      obtain ⟨rest, hrest, h⟩ := ok_of_bind h
      obtain rfl := Except.ok.inj h
      have hblank : DumpRows (if n.isRequire && afterRequire then [] else ['\n']) [] := by
        split
        · exact .nil
        · exact blank_dumps
      rw [List.flatMap_cons, Node.dumps_append]
      have hrest := ih (fun n hn => hns n (List.mem_cons_of_mem _ hn)) hrest
      exact (hblank.append (rootNode_dumps (hns n List.mem_cons_self) hfirst)).append hrest

/-- The rows of a file that begin with a dump are the dumps in it, in order, each alone on its
row. -/
theorem file_dumps {f : File} {contents : String} (hf : ∀ n ∈ f.nodes, n.OnRows)
    (h : file f = .ok contents) :
    List.Forall₂ Node.StandsOn f.dumps ((contents.toList.splitOn '\n').filter beginsDump) := by
  obtain ⟨text, htext, h⟩ := ok_of_bind h
  obtain ⟨body, hbody, htext⟩ := ok_of_bind htext
  obtain rfl := Except.ok.inj htext
  obtain rfl := Except.ok.inj h
  have hrows := (rootNodes_dumps hf hbody).append blank_dumps
  rw [List.append_nil] at hrows
  rw [String.toList_ofList, List.append_assoc, Read.splitOn_eq_cons (by decide) hrows.ends,
    List.filter_cons_of_neg (by decide)]
  exact hrows.rows

end Print

/-! ## Numbers of lines -/

namespace Read

/-- The lines of a text with their numbers, from 1 on. -/
def numberedLines (contents : String) : List (List Char × Nat) :=
  (contents.toList.splitOn '\n').zipIdx 1

/-- The numbers of the lines that begin with a dump. -/
def dumpLines (contents : String) : List Nat :=
  ((numberedLines contents).filter (beginsDump ·.1)).map (·.2)

/-- The number of a line tells which of the given dumps stands there: the lines that begin with
a dump have them in order, one on each line. -/
structure TellsDumps (contents : String) (ns : List Node) : Prop where
  increasing : (dumpLines contents).Pairwise (· < ·)
  stands : List.Forall₂ (fun n line => ∃ row, (row, line) ∈ numberedLines contents ∧
    n.StandsOn row) ns (dumpLines contents)

theorem pairwise_dumpLines (contents : String) : (dumpLines contents).Pairwise (· < ·) := by
  rw [dumpLines, List.pairwise_map]
  refine List.Pairwise.filter _ ?_
  rw [← List.pairwise_map, numberedLines, List.zipIdx_map_snd]
  exact List.pairwise_lt_range'

/-- Dumps that are the rows that begin with one are told apart by the numbers of their lines. -/
theorem TellsDumps.of_rows {contents : String} {ns : List Node}
    (h : List.Forall₂ Node.StandsOn ns ((contents.toList.splitOn '\n').filter beginsDump)) :
    TellsDumps contents ns := by
  refine ⟨pairwise_dumpLines contents, ?_⟩
  have hrows : (contents.toList.splitOn '\n').filter beginsDump =
      ((numberedLines contents).filter (beginsDump ·.1)).map (·.1) := by
    nth_rewrite 1 [← List.zipIdx_map_fst 1 (contents.toList.splitOn '\n')]
    exact List.filter_map
  rw [hrows, List.forall₂_map_right_iff] at h
  rw [dumpLines, List.forall₂_map_right_iff, List.forall₂_iff_zip]
  refine ⟨h.length_eq, fun hzip => ?_⟩
  have hmem := (List.mem_filter.1 (List.of_mem_zip hzip).2).1
  exact ⟨_, hmem, (List.forall₂_iff_zip.1 h).2 hzip⟩

end Read

end TypedPhp
