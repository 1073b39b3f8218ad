import TypedPhp.Proofs.Program.Declarations
import TypedPhp.Proofs.Expr.Linked

set_option autoImplicit false

/-!
# Construction of objects

A class of a generated program initializes each of its fields once: by a constant, or by a new object
of an earlier class, which its constructor makes (`ClassType.Constructed`). What making an object
evaluates can be read off the class and its constructor (`Program.Makes`), and it leads to earlier
classes only, so it comes to an end. `Program.construction_terminates` says both of every generated
program.
-/

namespace TypedPhp

/-! ## Fields and constructors -/

/-- A field of the class of number `i` has a fitting constant as its initial value, or it has none
and is for an object of a class of a lesser number. -/
inductive Field.Initialized (i : Nat) : Field → Prop where
  | constant {name : String} {t : Ty} {x : Node} {visibility : Visibility} : ConstantOf t x →
      Fits [] t x → Initialized i ⟨name, t, some x, visibility⟩
  | object {name : String} {j : Nat} {visibility : Visibility} : j < i →
      Initialized i ⟨name, .object (.numbered j), none, visibility⟩

/-- A statement assigns a new object of the class of a field to the field of the current object. -/
inductive Field.CreatedBy (c : ClassRef) : Field → Node → Prop where
  | of (name : String) (target : ClassRef) (visibility : Visibility) :
      CreatedBy c ⟨name, .object target, none, visibility⟩
        (.assign (.prop (.var "this" (.object c)) name)
          ((Node.newObject target.name).withType (.object target)))

/-- The text of a statement that makes the object of a field. -/
def Field.creationText (f : Field) (className : String) : List Char :=
  '$' :: "this".toList ++ "->".toList ++ f.name.toList ++ " = ".toList ++
    ("new ".toList ++ className.toList ++ "()".toList)

example : Field.creationText ⟨"f0", .object ⟨0, "C0"⟩, none, .publicMember⟩ "C0" =
    "$this->f0 = new C0()".toList := by
  decide

/-- The fields of a class that have no initial value. -/
def ClassType.unassigned (type : ClassType) : List Field := type.fields.filter (·.init.isNone)

/-- The constructors among some methods. -/
def FuncDecl.constructorsOf (methods : List FuncDecl) : List FuncDecl :=
  methods.filter (·.type.name == "__construct")

/-- The class of number `i` initializes its fields. It has one constructor if a field has no
initial value, and none otherwise. The constructor is its first method, takes nothing, returns
nothing, and makes the objects of these fields, in their order. -/
structure ClassType.Constructed (i : Nat) (type : ClassType) (methods : List FuncDecl) : Prop where
  name : type.name = className i
  fields : ∀ f ∈ type.fields, f.Initialized i
  unneeded : type.unassigned = [] → FuncDecl.constructorsOf methods = []
  constructor : type.unassigned ≠ [] → ∃ d, methods.head? = some d ∧
    FuncDecl.constructorsOf methods = [d] ∧
    d.type = .method "__construct" [] .void (.numbered i) ∧
    List.Forall₂ (Field.CreatedBy (.numbered i)) type.unassigned d.body
  text : ∀ d ∈ FuncDecl.constructorsOf methods, List.Forall₂ (fun f s => ∃ j < i,
    f.type = .object (.numbered j) ∧ Print.expr s = .ok (f.creationText (className j)))
      type.unassigned d.body

variable {i : Nat} {c : ClassRef} {f : Field} {s : Node} {type : ClassType}
  {methods : List FuncDecl}

/-- A drawn field is initialized. -/
theorem Field.Drawn.initialized (h : f.Drawn ((List.range i).map .numbered)) : f.Initialized i := by
  cases h with
  | value hconst _ => exact .constant hconst.constant hconst.constant.fits
  | object hc =>
      obtain ⟨j, hj, rfl⟩ := List.mem_map.1 hc
      exact .object (List.mem_range.1 hj)

/-- The text of a statement that makes an object of a numbered class. -/
theorem Field.CreatedBy.text (h : f.CreatedBy c s) (hf : f.Initialized i) :
    ∃ j < i, f.type = .object (.numbered j) ∧
      Print.expr s = .ok (f.creationText (className j)) := by
  obtain ⟨name, target, visibility⟩ := h
  cases hf with
  | @object _ j _ hj => exact ⟨j, hj, rfl, rfl⟩

/-- The creations of a class are those of its fields without initial value, in their order. -/
theorem ClassType.creations_created (hfields : ∀ f ∈ type.fields, f.Initialized i) (c : ClassRef) :
    List.Forall₂ (Field.CreatedBy c) type.unassigned (type.creations c) := by
  obtain ⟨name, fields, methods, isDefined⟩ := type
  unfold unassigned creations
  dsimp only at hfields ⊢
  induction fields with
  | nil => exact .nil
  | cons f fs ih =>
      have hrest := ih fun g hg => hfields g (List.mem_cons_of_mem f hg)
      cases hfields f List.mem_cons_self with
      | @constant _ t x _ _ _ =>
          rw [List.filter_cons_of_neg (by simp), List.filterMap_cons_none (by cases t <;> rfl)]
          exact hrest
      | object _ =>
          rw [List.filter_cons_of_pos (by simp), List.filterMap_cons_some (by rfl)]
          exact .cons (.of _ _ _) hrest

/-- A built class initializes its fields. -/
theorem RootNode.ClassBuilt.constructed {config : Config} {t : SymbolTable}
    (h : (RootNode.classDecl type methods).ClassBuilt config t i) : type.Constructed i methods := by
  obtain @⟨type, methods, hdrawn, -, -, htypes⟩ := h
  have hfields : ∀ f ∈ type.fields, f.Initialized i := fun f hf =>
    (hdrawn.fields f hf).initialized
  have hcreated := ClassType.creations_created hfields (.numbered i)
  have htext : List.Forall₂ (fun f s => ∃ j < i, f.type = .object (.numbered j) ∧
      Print.expr s = .ok (f.creationText (className j))) type.unassigned
        (type.creations (.numbered i)) := by
    have hall := (List.forall₂_and_left type.unassigned (type.creations (.numbered i))).2
      ⟨fun f hf => hfields f (List.mem_filter.1 hf).1, hcreated⟩
    exact hall.imp fun f s hs => hs.2.text hs.1
  -- A method that is drawn is named `m` and its place, so it is no constructor.
  have hplain : FuncDecl.constructorsOf methods = [] := by
    refine List.filter_eq_nil_iff.2 fun m hm heq => ?_
    obtain ⟨n, hn⟩ := hdrawn.names
    rw [← htypes, List.map_map] at hn
    obtain ⟨k, hk⟩ := exists_name_of_map_eq hn m hm
    refine ne_of_head ?_ (hk.symm.trans (eq_of_beq heq))
    simp [methodName, String.toList_append]
  have hall : FuncDecl.constructorsOf (type.constructors (.numbered i) ++ methods) =
      type.constructors (.numbered i) := by
    rw [FuncDecl.constructorsOf, List.filter_append, ← FuncDecl.constructorsOf,
      ← FuncDecl.constructorsOf, hplain, List.append_nil]
    refine List.filter_eq_self.2 fun d hd => ?_
    rw [(ClassType.constructors_create hd).1]
    rfl
  have hlen := hcreated.length_eq
  cases hcreations : type.creations (.numbered i) with
  | nil =>
      have hnone : type.constructors (.numbered i) = [] := by
        rw [ClassType.constructors, hcreations]
      rw [hcreations] at hlen
      have hempty : type.unassigned = [] := List.eq_nil_of_length_eq_zero hlen
      refine ⟨hdrawn.name, hfields, fun _ => hall.trans hnone, fun hne => absurd hempty hne, ?_⟩
      rw [hall, hnone]
      exact nofun
  | cons creation rest =>
      have hone : type.constructors (.numbered i) =
          [⟨.method "__construct" [] .void (.numbered i), [], type.creations (.numbered i)⟩] := by
        rw [ClassType.constructors, hcreations]
      refine ⟨hdrawn.name, hfields, fun hempty => ?_, fun _ => ⟨_, ?_, hall.trans hone, rfl, ?_⟩, ?_⟩
      · have hzero : type.unassigned.length = 0 := congrArg List.length hempty
        rw [hlen, hcreations] at hzero
        cases hzero
      · rw [hone]
        rfl
      · exact hcreated
      · intro d hd
        rw [hall, hone] at hd
        rw [List.mem_singleton.1 hd]
        exact htext

/-! ## What making an object evaluates -/

/-- The trees that are evaluated when an object of a class is made: the initial values of its fields
and the bodies of its constructors. -/
def ClassType.evaluated (type : ClassType) (methods : List FuncDecl) : List Node :=
  type.fields.filterMap (·.init) ++ (FuncDecl.constructorsOf methods).flatMap (·.body)

/-- Making an object of one class makes one of another class. -/
inductive Program.Makes (p : Program) : String → String → Prop where
  | of {type : ClassType} {methods : List FuncDecl} {n : Node} {b : String} :
      (type, methods) ∈ p.classes → n ∈ Node.subtermsList (type.evaluated methods) →
      n.op = .new → n.ident? = some b → Makes p type.name b

/-- The only class that a creation makes an object of is that of the field. -/
theorem Field.CreatedBy.makes (h : f.CreatedBy c s) (hf : f.Initialized i) {n : Node} {b : String}
    (hn : n ∈ s.subterms) (hnew : n.op = .new) (hb : n.ident? = some b) :
    ∃ j < i, b = className j := by
  obtain ⟨name, target, visibility⟩ := h
  cases hf with
  | @object _ j _ hj =>
      have hnodes : n = .assign (.prop (.var "this" (.object c)) name)
            ((Node.newObject (className j)).withType (.object (.numbered j))) ∨
          n = .prop (.var "this" (.object c)) name ∨ n = .var "this" (.object c) ∨
          n = (Node.newObject (className j)).withType (.object (.numbered j)) := by
        simpa [Node.assign, Node.prop, Node.var, Node.newObject, Node.withType, Node.ofArgs, Node.op,
          Node.args, Node.payload, Node.subterms, Node.subtermsList, ClassRef.numbered] using hn
      rcases hnodes with rfl | rfl | rfl | rfl
      · cases hnew
      · cases hnew
      · cases hnew
      · exact ⟨j, hj, (Option.some.inj hb).symm⟩

/-- Making an object of a class makes objects of earlier classes only. -/
theorem ClassType.Constructed.makes (h : type.Constructed i methods) {n : Node} {b : String}
    (hn : n ∈ Node.subtermsList (type.evaluated methods)) (hnew : n.op = .new)
    (hb : n.ident? = some b) : ∃ j < i, b = className j := by
  -- What is evaluated are initial values, which are constants, and the statements of the
  -- constructor, each of which creates a field.
  obtain ⟨x, hx, hn⟩ := Node.mem_subtermsList.1 hn
  rcases List.mem_append.1 hx with hx | hx
  · obtain ⟨f, hf, hinit⟩ := List.mem_filterMap.1 hx
    cases h.fields f hf with
    | constant hconst _ =>
        obtain rfl := Option.some.inj hinit
        have hplain : n.op.refers = false := (hconst.plain n hn).1
        rw [hnew] at hplain
        cases hplain
    | object _ => cases hinit
  · obtain ⟨d, hd, hx⟩ := List.mem_flatMap.1 hx
    have hne : type.unassigned ≠ [] := fun hempty => by
      rw [h.unneeded hempty] at hd
      cases hd
    obtain ⟨d', -, honly, -, hcreated⟩ := h.constructor hne
    rw [honly] at hd
    obtain rfl := List.mem_singleton.1 hd
    have hall := (List.forall₂_and_left type.unassigned d.body).2 ⟨fun f hf => hf, hcreated⟩
    have hmade : List.Forall₂ (fun _ s => ∃ f ∈ type.unassigned, f.CreatedBy (.numbered i) s)
        type.unassigned d.body := hall.imp fun f s hs => ⟨f, hs⟩
    obtain ⟨f, hf, hs⟩ := forall₂_right hmade x hx
    exact hs.makes (h.fields f (List.mem_filter.1 hf).1) hn hnew hb

namespace Program

variable {p : Program}

/-- Making objects comes to an end where every class initializes its fields. -/
theorem makes_wellFounded (h : ∀ c ∈ p.classes, ∃ i, c.1.Constructed i c.2) :
    WellFounded fun b a => p.Makes a b := by
  -- Numbers decrease; a class that is not numbered is not declared and makes nothing.
  have hnumbered : ∀ {a b}, p.Makes a b → ∃ i, a = className i ∧ ∃ j < i, b = className j := by
    rintro _ b ⟨hmem, hn, hnew, hb⟩
    obtain ⟨i, hi⟩ := h _ hmem
    exact ⟨i, hi.name, hi.makes hn hnew hb⟩
  have hacc : ∀ i, Acc (fun b a => p.Makes a b) (className i) := by
    intro i
    induction i using Nat.strongRecOn with
    | ind i ih =>
        refine ⟨_, fun b hb => ?_⟩
        obtain ⟨i', hi', j, hj, rfl⟩ := hnumbered hb
        obtain rfl := numbered_inj hi'
        exact ih j hj
  refine ⟨fun a => ⟨_, fun b hb => ?_⟩⟩
  obtain ⟨_, -, j, -, rfl⟩ := hnumbered hb
  exact hacc j

/-- Objects of a generated program are constructed. Every class initializes each of its fields
once, with a constant that fits or with a new object of an earlier class, and making an object comes
to an end, whatever the configuration and whatever the source yields. -/
theorem construction_terminates {ρ : Type} [WordSource ρ] (source : ρ) (config : Config)
    (attempts : Nat) {g' : Generator ρ}
    (h : Build.program (Generator.start source config attempts) = .ok (p, g')) :
    (∀ c ∈ p.classes, ∃ i, c.1.Constructed i c.2) ∧ WellFounded fun b a => p.Makes a b := by
  have hcfg : config.Tolerated fun _ => True := Config.tolerated_of_all fun _ => trivial
  obtain ⟨⟨q, hq, rfl⟩, -⟩ := (Build.program_runs source hcfg trivial attempts).of_ok h
  have hall : ∀ c ∈ q.program.classes, ∃ i, c.1.Constructed i c.2 := by
    intro c hc
    obtain ⟨n, hn, hclass⟩ := List.mem_filterMap.1 ((Parts.classes_perm q).mem_iff.1 hc)
    obtain ⟨i, hbuilt⟩ := hq.ofClass hn
    cases n with
    | classDecl type methods =>
        obtain rfl := Option.some.inj hclass
        exact ⟨i, hbuilt.constructed⟩
    | _ => cases hclass
  exact ⟨hall, makes_wellFounded hall⟩

/-- A program whose second class has a field for an object of the first. -/
theorem construction_terminates_nested : ∃ p : Program,
    p.classes.map (fun c => (FuncDecl.constructorsOf c.2).length) = [0, 1] ∧
      (∀ c ∈ p.classes, ∃ i, c.1.Constructed i c.2) ∧ WellFounded fun b a => p.Makes a b := by
  obtain ⟨p, g', hrun, hcheck⟩ := Build.program_of_check ⟨[], 3⟩ { Config.small with classes := 2 }
    10 (fun p => p.classes.map (fun c => (FuncDecl.constructorsOf c.2).length) == [0, 1])
    (by decide +kernel)
  exact ⟨p, eq_of_beq hcheck, construction_terminates _ _ _ hrun⟩

end Program

end TypedPhp
