import TypedPhp.Proofs.Read.Outline
import TypedPhp.Proofs.Runs.Building
import TypedPhp.Proofs.Ty.Proper

set_option autoImplicit false

/-!
# The text of a type is read back

The text of a type shows its form, with every enum as the kind of its values and every class by its
name (`Ty.shape`). A reader takes members apart at the bars and puts brackets around what stands
before them; a question mark binds one word, and the word `null` at the end of a text makes all that
stands before it nullable. It finds the shape of every type without function types whose unions and
nullables are not nested in each other the wrong way round (`Read.text_settles`), and the types that
are drawn are of this kind, so their texts tell them apart (`Ty.text_readable`).
-/

namespace TypedPhp

/-! ## Shapes -/

/-- What the text of a type shows. Enums and classes are words. -/
inductive Shape where
  | scalar (kind : Scalar)
  | named (name : String)
  | union (left right : Shape)
  | nullable (inner : Shape)
  | array (elem : Shape)
  | tuple (elems : List Shape)

namespace Ty

mutual

/-- The shape that the text of a type shows. -/
def shape : Ty → Shape
  | scalar k => .scalar k
  | object c => .named c.name
  | union x y => .union x.shape y.shape
  | nullable x => .nullable x.shape
  | array elem => .array elem.shape
  | tuple elems => .tuple (shapes elems)
  | callable _ => .named "callable"
  | enum e => .scalar e.kind

/-- The shapes of several types. -/
def shapes : List Ty → List Shape
  | [] => []
  | t :: ts => t.shape :: shapes ts

end

mutual

/-- The type with each enum replaced by the kind of its values. -/
def withoutEnums : Ty → Ty
  | scalar k => scalar k
  | object c => object c
  | union x y => union x.withoutEnums y.withoutEnums
  | nullable x => nullable x.withoutEnums
  | array elem => array elem.withoutEnums
  | tuple elems => tuple (withoutEnumsList elems)
  | callable f => callable f
  | enum e => scalar e.kind

/-- Several types with their enums replaced. -/
def withoutEnumsList : List Ty → List Ty
  | [] => []
  | t :: ts => t.withoutEnums :: withoutEnumsList ts

end

/-- A type whose text can be taken apart: it has no function types, the members of its unions
are neither unions nor nullable, and what is nullable is not so twice. -/
inductive Legible : Ty → Prop where
  | scalar (k : Scalar) : Legible (.scalar k)
  | object (c : ClassRef) : Legible (.object c)
  | union {x y : Ty} : Legible x → Legible y → x.needsParens = false → y.needsParens = false →
      Legible (.union x y)
  | nullable {x : Ty} : Legible x → (∀ y, x ≠ .nullable y) → Legible (.nullable x)
  | array {elem : Ty} : Legible elem → Legible (.array elem)
  | tuple {elems : List Ty} : (∀ t ∈ elems, Legible t) → Legible (.tuple elems)
  | enum (e : EnumType) : Legible (.enum e)

/-- The words that have a meaning of their own in the text of a type. -/
def reservedWords : List String :=
  ["void", "bool", "int", "float", "string", "mixed", "null", "tuple", "callable"]

/-- A name of a class that is not taken for another word of a type. -/
structure ClassName (s : String) : Prop where
  identifier : Read.isIdentifier s = true
  ordinary : s ∉ reservedWords

/-- Every class that a type names has a name of its own kind. -/
abbrev Named (t : Ty) : Prop := t.ClassesIn fun c => ClassName c.name

variable {t u : Ty} {ts us : List Ty}

/-! The texts of types that have parts. -/

theorem text_union (x y : Ty) : (union x y).text = x.text ++ '|' :: y.text := rfl

theorem text_nullable (x : Ty) :
    (nullable x).text = if x.takesQuestionMark then '?' :: x.text else x.text ++ "|null".toList :=
  rfl

theorem text_array (x : Ty) : (array x).text =
    if x.needsParens then '(' :: (x.text ++ ")[]".toList) else x.text ++ "[]".toList := rfl

theorem text_tuple : (tuple ts).text = "tuple(".toList ++ textList ts ++ [')'] := rfl

/-- Lists of one length and shape are identical, enums aside, if their members are. -/
theorem identicalList_of_shapes_eq
    (hts : ∀ t ∈ ts, ∀ u ∈ us, t.shape = u.shape → t.withoutEnums.identical u.withoutEnums = true)
    (h : shapes ts = shapes us) :
    identicalList (withoutEnumsList ts) (withoutEnumsList us) = true := by
  induction ts generalizing us with
  | nil =>
      cases us with
      | nil => rfl
      | cons u us => cases h
  | cons t ts ih =>
      cases us with
      | nil => cases h
      | cons u us =>
          obtain ⟨hhead, htail⟩ := List.cons.inj h
          rw [withoutEnumsList, withoutEnumsList, identicalList, Bool.and_eq_true]
          refine ⟨hts t List.mem_cons_self u List.mem_cons_self hhead, ih ?_ htail⟩
          exact fun t ht u hu => hts t (List.mem_cons_of_mem _ ht) u (List.mem_cons_of_mem _ hu)

/-- Legible types of one shape are identical, enums aside. -/
theorem Legible.identical_of_shape_eq (ht : t.Legible) (hu : u.Legible) (h : t.shape = u.shape) :
    t.withoutEnums.identical u.withoutEnums = true := by
  -- Both types are legible, so a shape tells the form that each of them has.
  induction ht generalizing u with
  | scalar k | enum e =>
      cases hu <;> simp_all [shape, withoutEnums, identical]
  | object c =>
      cases hu <;> simp_all [shape, withoutEnums, identical]
  | union _ _ _ _ ihx ihy =>
      cases hu with
      | union hx hy =>
          obtain ⟨hleft, hright⟩ := Shape.union.inj h
          rw [withoutEnums, withoutEnums, identical, ihx hx hleft, ihy hy hright]
          rfl
      | _ => cases h
  | nullable _ _ ih =>
      cases hu with
      | nullable hx _ => exact ih hx (Shape.nullable.inj h)
      | _ => cases h
  | array _ ih =>
      cases hu with
      | array helem => exact ih helem (Shape.array.inj h)
      | _ => cases h
  | tuple _ ih =>
      cases hu with
      | tuple helems =>
          apply identicalList_of_shapes_eq _ (Shape.tuple.inj h)
          exact fun t ht u hu => ih t ht (helems u hu)
      | _ => cases h

end Ty

/-! ## The reader -/

namespace Read

/-- The shape that a word stands for. -/
def wordShape (s : String) : Shape :=
  match [Scalar.void, .bool, .int, .float, .string, .mixed].find? (·.text = s) with
  | some k => .scalar k
  | none => .named s

/-- A shape in as many arrays as there are brackets after it. -/
def brackets (x : Shape) : List Char → Shape × List Char
  | '[' :: ']' :: rest => brackets (.array x) rest
  | rest => (x, rest)

/-- A shape and what stands after a bar behind it. -/
def joined (x : Shape) : Shape → Shape
  | .named s => if s = "null" then .nullable x else .union x (.named s)
  | y => .union x y

mutual

/-- A type. -/
def typeShape : (fuel : Nat) → List Char → Option (Shape × List Char)
  | 0, _ => none
  | fuel + 1, text => do
    let (x, rest) ← member fuel text
    alternatives fuel x rest

/-- A type that begins with what has been read already. -/
def alternatives : (fuel : Nat) → Shape → List Char → Option (Shape × List Char)
  | 0, _, _ => none
  | fuel + 1, x, '|' :: text => do
    let (y, rest) ← member fuel text
    alternatives fuel (joined x y) rest
  | _ + 1, x, rest => some (x, rest)

/-- A member of a union. A question mark goes with the next word only. -/
def member : (fuel : Nat) → List Char → Option (Shape × List Char)
  | 0, _ => none
  | fuel + 1, text =>
    match label? text, text with
    | some (s, rest), _ =>
      if s = "tuple" then do
        let rest ← ['('].isPrefixOf? rest
        let (xs, rest) ← members fuel rest
        some (brackets (.tuple xs) rest)
      else some (brackets (wordShape s) rest)
    | none, '?' :: text => do
      let (s, rest) ← label? text
      some (.nullable (wordShape s), rest)
    | none, '(' :: text => do
      let (x, rest) ← typeShape fuel text
      let rest ← [')'].isPrefixOf? rest
      some (brackets x rest)
    | none, _ => none

/-- The members of a tuple, up to the parenthesis that closes it. -/
def members : (fuel : Nat) → List Char → Option (List Shape × List Char)
  | 0, _ => none
  | _ + 1, ')' :: rest => some ([], rest)
  | fuel + 1, text => do
    let (x, rest) ← typeShape fuel text
    match ", ".toList.isPrefixOf? rest with
    | some rest => do
      let (xs, rest) ← members fuel rest
      some (x :: xs, rest)
    | none => do
      let rest ← [')'].isPrefixOf? rest
      some ([x], rest)

end

/-! ## What follows a type -/

/-- What follows a word does not go on with it. -/
def EndsWord (rest : List Char) : Prop := ∀ c ∈ rest.head?, identChar c = false

/-- A type ends at a parenthesis, a comma or a bar, or with the text. -/
def EndsType (rest : List Char) : Prop := ∀ c ∈ rest.head?, c ∈ [')', ',', '|']

variable {rest : List Char} {s : String} {x : Shape} {t : Ty}

theorem EndsType.endsWord (h : EndsType rest) : EndsWord rest := by
  have hall : [')', ',', '|'].all (fun c => identChar c == false) = true := by decide
  exact fun c hc => eq_of_beq (List.all_eq_true.1 hall c (h c hc))

/-- No bracket stands where a type ends. -/
theorem EndsType.brackets (h : EndsType rest) : brackets x rest = (x, rest) := by
  cases rest with
  | nil => rfl
  | cons c rest =>
      have hne : c ≠ '[' := by
        rintro rfl
        exact absurd (h _ rfl) (by decide)
      rw [Read.brackets]
      exact fun tail heq => hne (List.cons.inj heq).1

/-! ## Words -/

theorem wordShape_kind (k : Scalar) : wordShape k.text = .scalar k := by
  cases k <;> rfl

theorem kind_identifier (k : Scalar) : isIdentifier k.text = true ∧ k.text ≠ "tuple" := by
  cases k <;> decide

/-- The name of a class stands for it. -/
theorem wordShape_named (h : s ∉ Ty.reservedWords) : wordShape s = .named s := by
  rw [wordShape, List.find?_eq_none.2]
  intro k hk heq
  apply h
  rw [← of_decide_eq_true heq]
  have hall : ∀ k ∈ [Scalar.void, .bool, .int, .float, .string, .mixed],
      k.text ∈ Ty.reservedWords := by
    decide
  exact hall k hk

/-- A type that a question mark goes with is one word, and it stands for the type's shape. -/
theorem exists_word (ht : t.Legible) (hn : t.Named) (h : t.takesQuestionMark = true) : ∃ s,
    isIdentifier s = true ∧ s ≠ "tuple" ∧ t.text = s.toList ∧ t.shape = wordShape s := by
  cases ht with
  | scalar k =>
      obtain ⟨hident, hne⟩ := kind_identifier k
      exact ⟨k.text, hident, hne, rfl, (wordShape_kind k).symm⟩
  | enum e =>
      obtain ⟨hident, hne⟩ := kind_identifier e.kind
      exact ⟨e.kind.text, hident, hne, rfl, (wordShape_kind e.kind).symm⟩
  | object c =>
      obtain ⟨hident, hordinary⟩ := hn.object
      refine ⟨c.name, hident, ?_, rfl, (wordShape_named hordinary).symm⟩
      intro heq
      exact hordinary (by rw [heq]; decide)
  | _ => cases h

/-- A shape of a legible type is not the word `null`. -/
theorem joined_shape (ht : t.Legible) (hn : t.Named) : joined x t.shape = .union x t.shape := by
  cases ht with
  | object c =>
      have hne : c.name ≠ "null" := by
        intro heq
        exact hn.object.ordinary (by rw [heq]; decide)
      exact if_neg hne
  | _ => rfl

/-- A word is read as a member, with the brackets after it. -/
theorem word_settles (hs : isIdentifier s = true) (hne : s ≠ "tuple") (hrest : EndsWord rest) :
    Settles (fun fuel => member fuel (s.toList ++ rest)) (brackets (wordShape s) rest) := by
  apply Settles.of_succ
  simp only [member, label?_append hs hrest, if_neg hne]
  exact .pure _

/-- A word is read as nullable after a question mark. -/
theorem question_settles (hs : isIdentifier s = true) (hrest : EndsWord rest) :
    Settles (fun fuel => member fuel ('?' :: (s.toList ++ rest)))
      (.nullable (wordShape s), rest) := by
  apply Settles.of_succ
  have hnone : label? ('?' :: (s.toList ++ rest)) = none := rfl
  simp only [member, hnone, label?_append hs hrest]
  exact .pure _

/-- A type in parentheses is read as a member, with the brackets after it. -/
theorem parens_settles {text : List Char}
    (h : Settles (fun fuel => typeShape fuel (text ++ ')' :: rest)) (x, ')' :: rest)) :
    Settles (fun fuel => member fuel ('(' :: (text ++ ')' :: rest))) (brackets x rest) := by
  apply Settles.of_succ
  have hnone : label? ('(' :: (text ++ ')' :: rest)) = none := rfl
  simp only [member, hnone]
  exact h.bind (.pure _)

/-- A tuple is read as a member, with the brackets after it. -/
theorem tuple_settles {text : List Char} {xs : List Shape}
    (h : Settles (fun fuel => members fuel text) (xs, rest)) :
    Settles (fun fuel => member fuel ("tuple(".toList ++ text)) (brackets (.tuple xs) rest) := by
  have hparen : EndsWord ('(' :: text) := by
    rintro c ⟨⟩
    decide
  have hlabel : label? ("tuple(".toList ++ text) = some ("tuple", '(' :: text) :=
    label?_append (s := "tuple") (by decide) hparen
  apply Settles.of_succ
  simp only [member, hlabel]
  exact h.bind (.pure _)

/-! ## Types -/

/-- The text of a member is read as its shape, with the brackets after it. -/
def RecoversMember (t : Ty) : Prop :=
  ∀ rest, EndsWord rest → Settles (fun fuel => member fuel (t.text ++ rest)) (brackets t.shape rest)

/-- The text of a type is read as its shape, and so is what goes on with it. -/
def RecoversType (t : Ty) : Prop :=
  ∀ rest found, EndsType rest → Settles (fun fuel => alternatives fuel t.shape rest) found →
    Settles (fun fuel => typeShape fuel (t.text ++ rest)) found

/-- A member is a type. -/
theorem RecoversMember.type (h : RecoversMember t) : RecoversType t := by
  intro rest found hrest hfound
  apply Settles.of_succ
  simp only [typeShape]
  refine (h rest hrest.endsWord).bind ?_
  rw [hrest.brackets]
  exact hfound

/-- Nothing more is read where no bar follows. -/
theorem alternatives_settles (hrest : EndsType rest) (hbar : rest.head? ≠ some '|') :
    Settles (fun fuel => alternatives fuel x rest) (x, rest) := by
  apply Settles.of_succ
  cases rest with
  | nil => exact .pure _
  | cons c rest =>
      have hne : c ≠ '|' := fun heq => hbar (congrArg some heq)
      have hstop : ∀ fuel, alternatives (fuel + 1) x (c :: rest) = some (x, c :: rest) := by
        intro fuel
        rw [alternatives]
        exact fun text heq => hne (List.cons.inj heq).1
      simp only [hstop]
      exact .pure _

theorem RecoversType.whole (h : RecoversType t) (hrest : EndsType rest)
    (hbar : rest.head? ≠ some '|') :
    Settles (fun fuel => typeShape fuel (t.text ++ rest)) (t.shape, rest) :=
  h rest _ hrest (alternatives_settles hrest hbar)

/-- The text of a type does not begin with a parenthesis that closes one. -/
theorem text_head (ht : t.Legible) (hn : t.Named) : ∃ c tail, t.text = c :: tail ∧ c ≠ ')' := by
  have happend : ∀ {x y : List Char}, (∃ c tail, x = c :: tail ∧ c ≠ ')') →
      ∃ c tail, x ++ y = c :: tail ∧ c ≠ ')' := by
    rintro _ y ⟨c, tail, rfl, hne⟩
    exact ⟨c, tail ++ y, rfl, hne⟩
  have hone : ∀ {t : Ty}, t.Legible → t.Named → t.takesQuestionMark = true →
      ∃ c tail, t.text = c :: tail ∧ c ≠ ')' := by
    intro t ht hn h
    obtain ⟨s, hs, -, htext, -⟩ := exists_word ht hn h
    obtain ⟨c, tail, heq, hstart, -⟩ := exists_of_isIdentifier hs
    refine ⟨c, tail, htext.trans heq, ?_⟩
    rintro rfl
    exact absurd hstart (by decide)
  induction ht with
  | scalar k => exact hone (.scalar k) hn rfl
  | object c => exact hone (.object c) hn rfl
  | enum e => exact hone (.enum e) hn rfl
  | union _ _ _ _ ihx _ =>
      rw [Ty.text_union]
      exact happend (ihx hn.left)
  | @nullable x _ _ ih =>
      rw [Ty.text_nullable]
      split
      · exact ⟨_, _, rfl, by decide⟩
      · exact happend (ih hn)
  | @array elem _ ih =>
      rw [Ty.text_array]
      split
      · exact ⟨_, _, rfl, by decide⟩
      · exact happend (ih hn)
  | tuple _ _ =>
      rw [Ty.text_tuple, List.append_assoc]
      exact happend ⟨'t', "uple(".toList, by decide, by decide⟩

/-- The members of a tuple that is not empty begin with a type. -/
theorem members_type (ht : t.Legible) (hn : t.Named) (rest : List Char) (fuel : Nat) :
    members (fuel + 1) (t.text ++ rest) = (do
      let (x, rest) ← typeShape fuel (t.text ++ rest)
      match ", ".toList.isPrefixOf? rest with
      | some rest => do
        let (xs, rest) ← members fuel rest
        some (x :: xs, rest)
      | none => do
        let rest ← [')'].isPrefixOf? rest
        some ([x], rest)) := by
  obtain ⟨c, tail, heq, hne⟩ := text_head ht hn
  rw [heq, List.cons_append, members]
  exact fun text heq => hne (List.cons.inj heq).1

/-- The members of a tuple are read one by one. -/
theorem members_settles {ts : List Ty} (ht : ∀ t ∈ ts, t.Legible) (hn : ∀ t ∈ ts, t.Named)
    (h : ∀ t ∈ ts, RecoversType t) (rest : List Char) :
    Settles (fun fuel => members fuel (Ty.textList ts ++ ')' :: rest)) (Ty.shapes ts, rest) := by
  induction ts with
  | nil => exact .of_succ (.pure _)
  | cons t ts ih =>
      rw [List.forall_mem_cons] at ht hn h
      cases ts with
      | nil =>
          apply Settles.of_succ
          simp only [Ty.textList, members_type ht.1 hn.1]
          exact (h.1.whole (by simp [EndsType]) (by simp)).bind (.pure _)
      | cons u us =>
          have htail := ih ht.2 hn.2 h.2
          apply Settles.of_succ
          simp only [Ty.textList, List.append_assoc, members_type ht.1 hn.1]
          refine (h.1.whole (by simp [EndsType]) (by simp)).bind ?_
          simp only [isPrefixOf?_append]
          exact htail.bind (.pure _)

/-- A word is read as a member. -/
theorem word_recovers (ht : t.Legible) (hn : t.Named) (h : t.takesQuestionMark = true) :
    RecoversMember t := by
  intro rest hrest
  obtain ⟨s, hs, hne, htext, hshape⟩ := exists_word ht hn h
  rw [htext, hshape]
  exact word_settles hs hne hrest

/-- What stands before the word `null` is nullable. -/
theorem null_settles {found : Shape × List Char} (hrest : EndsType rest)
    (h : Settles (fun fuel => alternatives fuel (.nullable x) rest) found) :
    Settles (fun fuel => alternatives fuel x ("|null".toList ++ rest)) found := by
  have hnull : Settles (fun fuel => member fuel ("null".toList ++ rest))
      (brackets (.named "null") rest) :=
    word_settles (by decide) (by decide) hrest.endsWord
  rw [hrest.brackets] at hnull
  apply Settles.of_succ
  change Settles (fun fuel => alternatives (fuel + 1) x ('|' :: ("null".toList ++ rest))) found
  simp only [alternatives]
  exact hnull.bind h

/-- Legible types are read back, and as members unless they are unions or nullable. -/
theorem recovers (ht : t.Legible) (hn : t.Named) :
    (t.needsParens = false → RecoversMember t) ∧ RecoversType t := by
  have hmember : ∀ {t : Ty}, RecoversMember t →
      (t.needsParens = false → RecoversMember t) ∧ RecoversType t := fun h => ⟨fun _ => h, h.type⟩
  induction ht with
  | scalar k => exact hmember (word_recovers (.scalar k) hn rfl)
  | object c => exact hmember (word_recovers (.object c) hn rfl)
  | enum e => exact hmember (word_recovers (.enum e) hn rfl)
  | @union x y _ hy _ hmembers ihx ihy =>
      -- The left side may be a union itself: it is read first, with the right side as what follows.
      refine ⟨nofun, fun rest found hrest hfound => ?_⟩
      rw [Ty.text_union, List.append_assoc]
      refine (ihx hn.left).2 _ _ (by simp [EndsType]) (.of_succ ?_)
      simp only [List.cons_append, alternatives]
      refine ((ihy hn.right).1 hmembers rest hrest.endsWord).bind ?_
      rw [hrest.brackets]
      simp only [joined_shape hy hn.right]
      exact hfound
  | @nullable x hx _ ih =>
      refine ⟨nofun, fun rest found hrest hfound => ?_⟩
      rw [Ty.text_nullable]
      split
      -- A question mark stands before a single word only; after anything else, null is a member.
      · rename_i hquestion
        obtain ⟨s, hs, -, htext, hshape⟩ := exists_word hx hn hquestion
        rw [Ty.shape, hshape] at hfound
        rw [htext]
        exact .of_succ ((question_settles hs hrest.endsWord).bind hfound)
      · rw [List.append_assoc]
        exact (ih hn).2 _ _ (by simp [EndsType]) (null_settles hrest hfound)
  | @array elem _ ih =>
      refine hmember fun rest hrest => ?_
      rw [Ty.text_array]
      split
      · have hparen : EndsType (")[]".toList ++ rest) := by
          rintro c ⟨⟩
          decide
        have h := parens_settles ((ih hn).2.whole hparen nofun)
        rwa [List.cons_append, List.append_assoc]
      · rename_i hparens
        have hbracket : EndsWord ("[]".toList ++ rest) := by
          rintro c ⟨⟩
          decide
        rw [List.append_assoc]
        exact (ih hn).1 (Bool.eq_false_iff.2 hparens) _ hbracket
  | @tuple elems helems ih =>
      refine hmember fun rest _ => ?_
      rw [Ty.text_tuple, List.append_assoc, List.append_assoc]
      exact tuple_settles (members_settles helems (fun _ ht => hn.member ht)
        (fun t ht => (ih t ht (hn.member ht)).2) rest)

/-- The whole text of a legible type is read as its shape. -/
theorem text_settles (ht : t.Legible) (hn : t.Named) :
    Settles (fun fuel => typeShape fuel t.text) (t.shape, []) := by
  have hends : EndsType [] := nofun
  have h := (recovers ht hn).2.whole hends nofun
  rwa [List.append_nil] at h

end Read

namespace Ty

/-- The types that are drawn are legible. -/
theorem Drawn.legible {names : List String} {t : Ty} (h : Drawn names t) : t.Legible := by
  have hscalar : ∀ {t : Ty}, t.Literate → t.Legible ∧ t.needsParens = false := by
    rintro _ ⟨k⟩
    exact ⟨.scalar _, rfl⟩
  induction h with
  | scalar h => exact (hscalar h).1
  | object _ => exact .object _
  | enum _ _ => exact .enum _
  | @nullable t h =>
      refine .nullable (hscalar h).1 ?_
      rintro y rfl
      exact absurd (hscalar h).2 nofun
  | union hx hy => exact .union (hscalar hx).1 (hscalar hy).1 (hscalar hx).2 (hscalar hy).2
  | tuple _ h => exact .tuple fun t ht => (hscalar (h t ht)).1
  | array _ ih => exact .array ih

/-- The text of a type is uniquely readable. Legible types with the same text are identical once
each enum is replaced by the kind of its values, and every type that is drawn is legible and names
classes of the table. -/
theorem text_readable {ρ : Type} [WordSource ρ] (env : Env) (s : ρ) :
    (∀ t u : Ty, t.Legible → t.Named → u.Legible → u.Named → t.text = u.text →
      t.withoutEnums.identical u.withoutEnums = true) ∧
    ∀ t s', Draw.type env s = .ok (t, s') →
      t.Legible ∧ ∀ c ∈ t.classes, env.symbols.classNames[c.id]? = some c.name := by
  constructor
  · intro t u ht htn hu hun heq
    have hread := Read.text_settles ht htn
    rw [heq] at hread
    have hshape := (Prod.mk.inj (hread.unique (Read.text_settles hu hun))).1
    exact ht.identical_of_shape_eq hu hshape
  · intro t s' hrun
    have hdrawn : Drawn env.symbols.classNames t :=
      ((Draw.type_drawn (E := fun _ => True) (fun _ _ _ => trivial) trivial).runs s).of_ok hrun
    exact ⟨hdrawn.legible, hdrawn.within.known⟩

/-- A tuple with nullable enums has the text of the same tuple with integers in their place, and a
tuple of the least length is drawn from words of no other value than zero after the first. -/
theorem text_readable_tuple :
    let source : Scripted.Stream := ⟨[0x5000000000000000, 0, 0, 0], 0⟩
    let list : Ty := .nullable (.array (.object ⟨0, "C0"⟩))
    let t : Ty := .tuple [.array (.nullable (.enum ⟨.int, [.int 1, .int 2, .int 3]⟩)), list]
    let u : Ty := .tuple [.array (.nullable .int), list]
    (t.text = "tuple((?int)[], C0[]|null)".toList ∧ u.text = t.text ∧
      t.withoutEnums.identical u.withoutEnums = true) ∧
    ∃ t s', Draw.type (Generator.bare 0).env source = .ok (t, s') ∧
      t.text = "tuple(bool, bool)".toList ∧ t.Legible := by
  intro source list t u
  obtain ⟨htext, hdrawn⟩ := text_readable (Generator.bare 0).env source
  constructor
  · have hlist : list.Legible := .nullable (.array (.object _)) nofun
    have ht : t.Legible :=
      .tuple (by simpa using ⟨.array (.nullable (.enum _) nofun), hlist⟩)
    have hu : u.Legible :=
      .tuple (by simpa using ⟨.array (.nullable (.scalar _) nofun), hlist⟩)
    have hname : ClassName "C0" := ⟨by decide, by decide⟩
    have htn : t.Named := List.forall_mem_singleton.2 hname
    have hun : u.Named := List.forall_mem_singleton.2 hname
    have heq : t.text = u.text := rfl
    exact ⟨by decide, heq.symm, htext t u ht htn hu hun heq⟩
  · have hany : (Draw.type (Generator.bare 0).env source).toOption.any
        (fun r => r.1.text == "tuple(bool, bool)".toList) = true := by
      decide +kernel
    obtain ⟨t, s', hrun, hcheck⟩ := Runs.exists_of_check hany
    exact ⟨t, s', hrun, eq_of_beq hcheck, (hdrawn t s' hrun).1⟩

end Ty

end TypedPhp
