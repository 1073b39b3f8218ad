import Mathlib.Algebra.Ring.Parity
import Mathlib.Logic.Function.Iterate
import Mathlib.Tactic.Ring
import TypedPhp.Syntax.Constant

set_option autoImplicit false

/-!
# Literals under signs

A literal can stand under parentheses and signs in any order and number. Its constant value depends
on the signs only, and through the number of minus signs alone: an integer has the value that the
signs give in whole numbers, unless it is the least one and there is a minus sign, a float has its
sign bit flipped that often, and no other literal has a value under a sign
(`Node.constant_signed`). `Node.Under` says what a node is under.
-/

namespace TypedPhp

/-- What can stand around a literal. -/
inductive Wrapper where
  | parens
  | plus
  | minus
deriving DecidableEq, Repr

namespace Wrapper

/-- The operator of a wrapper. -/
def op : Wrapper → Op
  | parens => .parens
  | plus => .unaryPlus
  | minus => .negation

/-- What a wrapper makes of a value. -/
def apply : Wrapper → Option Literal → Option Literal
  | parens, l? => l?
  | plus, l? => l?.bind Literal.plus
  | minus, l? => l?.bind Literal.minus

/-- What wrappers make of a value. The last of them is the innermost one, and applies first. -/
def applyAll (ws : List Wrapper) (l? : Option Literal) : Option Literal := ws.foldr apply l?

/-- How many of the wrappers are minus signs. -/
def negations (ws : List Wrapper) : Nat := ws.count minus

/-- What a literal denotes under wrappers: itself under parentheses alone; nothing under a sign
if it is no number; under `k` minus signs an integer `v` denotes `(-1) ^ k * v`, which is in range
unless `v` is the least integer and `k` is positive; and a float keeps its magnitude, with the sign
flipped `k` times. -/
structure Denotes (ws : List Wrapper) (l : Literal) (l? : Option Literal) : Prop where
  bare : (∀ w ∈ ws, w = parens) → l? = some l
  signless : l.kind = .bool ∨ l.kind = .string → (∃ w ∈ ws, w ≠ parens) → l? = none
  least : l = .int Int64.minValue → 0 < negations ws → l? = none
  int : ∀ v, l = .int v → (v = Int64.minValue → negations ws = 0) →
    ∃ w : Int64, l? = some (.int w) ∧ w.toInt = (-1) ^ negations ws * v.toInt
  float : ∀ x, l = .float x → l? = some (.float (Double.neg^[negations ws] x)) ∧
    (Double.neg^[negations ws] x).magnitude = x.magnitude ∧
    (Double.neg^[negations ws] x).isNegative = (x.isNegative ^^ decide (Odd (negations ws)))

variable {ws : List Wrapper} {l : Literal} {l? : Option Literal}

theorem negations_plus (ws : List Wrapper) : negations (plus :: ws) = negations ws := rfl

theorem negations_minus (ws : List Wrapper) : negations (minus :: ws) = negations ws + 1 :=
  List.count_cons_self

/-! ## One wrapper -/

theorem apply_none (w : Wrapper) : w.apply none = none := by
  cases w <;> rfl

/-- The negation of an integer other than the least one is exact, and it is not the least one
either. -/
theorem toInt_neg {v : Int64} (hv : v ≠ Int64.minValue) :
    (-v).toInt = -v.toInt ∧ -v ≠ Int64.minValue := by
  have hlow := v.le_toInt
  have hhigh := v.toInt_lt
  have hne : v.toInt ≠ -2 ^ 63 := fun heq => hv (Int64.toInt_inj.1 heq)
  have hneg : (-v).toInt = -v.toInt := by
    rw [Int64.toInt_neg]
    exact Int.bmod_eq_of_le (by omega) (by omega)
  refine ⟨hneg, fun heq => ?_⟩
  have hmin := congrArg Int64.toInt heq
  rw [hneg, Int64.toInt_minValue] at hmin
  omega

/-- Two minus signs cancel where there is a value under both. -/
theorem apply_minus_minus (h : minus.apply (minus.apply l?) = some l) : l? = some l := by
  cases l? with
  | none => exact h
  | some m =>
      cases m with
      | int v =>
          by_cases hv : v = Int64.minValue
          · simp [apply, Literal.minus, hv] at h
          · simpa [apply, Literal.minus, hv, (toInt_neg hv).2] using h
      | float x => simpa [apply, Literal.minus, Double.neg_neg] using h
      | _ => simp [apply, Literal.minus] at h

/-- It makes no difference whether a minus sign stands inside a wrapper or outside. -/
theorem apply_minus_comm (w : Wrapper) (l? : Option Literal) :
    w.apply (minus.apply l?) = minus.apply (w.apply l?) := by
  cases w with
  | parens | minus => rfl
  | plus =>
      cases l? with
      | none => rfl
      | some m =>
          cases m with
          | int v =>
              by_cases hv : v = Int64.minValue <;>
                simp [apply, Literal.minus, Literal.plus, hv]
          | _ => rfl

/-! ## Any number of wrappers -/

theorem applyAll_cons (w : Wrapper) (ws : List Wrapper) (l? : Option Literal) :
    applyAll (w :: ws) l? = w.apply (applyAll ws l?) := rfl

theorem applyAll_append (vs ws : List Wrapper) (l? : Option Literal) :
    applyAll (vs ++ ws) l? = applyAll vs (applyAll ws l?) := List.foldr_append

theorem applyAll_none (ws : List Wrapper) : applyAll ws none = none := by
  induction ws with
  | nil => rfl
  | cons w ws ih => rw [applyAll_cons, ih, apply_none]

/-- A minus sign inside of wrappers can as well stand outside. -/
theorem applyAll_minus (ws : List Wrapper) (l? : Option Literal) :
    applyAll ws (minus.apply l?) = minus.apply (applyAll ws l?) := by
  induction ws with
  | nil => rfl
  | cons w ws ih => rw [applyAll_cons, ih, apply_minus_comm, applyAll_cons]

/-- Parentheses make no difference. -/
theorem applyAll_filter (ws : List Wrapper) (l? : Option Literal) :
    applyAll (ws.filter (· ≠ parens)) l? = applyAll ws l? := by
  induction ws with
  | nil => rfl
  | cons w ws ih =>
      cases w with
      | parens => exact ih
      | plus => exact congrArg plus.apply ih
      | minus => exact congrArg minus.apply ih

/-- Two minus signs anywhere cancel where there is a value under all wrappers. -/
theorem applyAll_minus_minus {before between after : List Wrapper}
    (h : applyAll (before ++ minus :: between ++ minus :: after) l? = some l) :
    applyAll (before ++ between ++ after) l? = some l := by
  -- Both signs move out of all the wrappers, and meet there.
  simp only [applyAll_append, applyAll_cons, applyAll_minus] at h
  rw [applyAll_append, applyAll_append]
  exact apply_minus_minus h

/-- Under parentheses alone a literal keeps its value. -/
theorem applyAll_parens (h : ∀ w ∈ ws, w = parens) (l? : Option Literal) :
    applyAll ws l? = l? := by
  induction ws with
  | nil => rfl
  | cons w ws ih =>
      obtain ⟨rfl, hrest⟩ := List.forall_mem_cons.1 h
      exact ih hrest

/-- A literal that is no number has no value under a sign. -/
theorem applyAll_signless (hl : l.kind = .bool ∨ l.kind = .string) (h : ∃ w ∈ ws, w ≠ parens) :
    applyAll ws (some l) = none := by
  have hsign : ∀ w : Wrapper, w ≠ parens → w.apply (some l) = none := by
    intro w hw
    cases l with
    | int v | float x => rcases hl with hl | hl <;> cases hl
    | _ => cases w <;> first | rfl | exact absurd rfl hw
  induction ws with
  | nil => simp at h
  | cons w ws ih =>
      rw [applyAll_cons]
      by_cases hrest : ∃ v ∈ ws, v ≠ parens
      · rw [ih hrest, apply_none]
      -- Otherwise the sign is the outermost wrapper, and the others are parentheses.
      · push Not at hrest
        obtain ⟨v, hv, hne⟩ := h
        rcases List.mem_cons.1 hv with rfl | hv
        · rw [applyAll_parens hrest, hsign v hne]
        · exact absurd (hrest v hv) hne

/-- The least integer has a value as long as there is no minus sign. -/
theorem applyAll_least (ws : List Wrapper) : applyAll ws (some (.int Int64.minValue)) =
    if negations ws = 0 then some (.int Int64.minValue) else none := by
  induction ws with
  | nil => rfl
  | cons w ws ih =>
      rw [applyAll_cons, ih]
      cases w with
      | parens => rfl
      | plus =>
          rw [negations_plus]
          split <;> rfl
      | minus =>
          rw [negations_minus, if_neg (Nat.succ_ne_zero _)]
          split <;> rfl

/-- Every other integer has the value that the signs give in whole numbers. -/
theorem applyAll_int {v : Int64} (hv : v ≠ Int64.minValue) (ws : List Wrapper) :
    ∃ w : Int64, applyAll ws (some (.int v)) = some (.int w) ∧ w ≠ Int64.minValue ∧
      w.toInt = (-1) ^ negations ws * v.toInt := by
  induction ws with
  | nil => exact ⟨v, rfl, hv, by simp [negations]⟩
  | cons w ws ih =>
      obtain ⟨u, hu, hne, htoInt⟩ := ih
      rw [applyAll_cons, hu]
      cases w with
      | parens => exact ⟨u, rfl, hne, htoInt⟩
      | plus => exact ⟨u, rfl, hne, htoInt⟩
      | minus =>
          obtain ⟨hneg, hne'⟩ := toInt_neg hne
          refine ⟨-u, by simp [apply, Literal.minus, hne], hne', ?_⟩
          rw [hneg, htoInt, negations_minus, pow_succ]
          ring

/-- A float has its sign flipped once for each minus sign. -/
theorem applyAll_float (x : Double) (ws : List Wrapper) :
    applyAll ws (some (.float x)) = some (.float (Double.neg^[negations ws] x)) := by
  induction ws with
  | nil => rfl
  | cons w ws ih =>
      rw [applyAll_cons, ih]
      cases w with
      | parens | plus => rfl
      | minus =>
          rw [negations_minus, Function.iterate_succ_apply']
          rfl

/-- Flipping the sign keeps the magnitude. -/
theorem iterate_neg (x : Double) (k : Nat) : (Double.neg^[k] x).magnitude = x.magnitude ∧
    (Double.neg^[k] x).isNegative = (x.isNegative ^^ decide (Odd k)) := by
  induction k with
  | zero => simp
  | succ k ih =>
      rw [Function.iterate_succ_apply', Double.magnitude_neg, Double.isNegative_neg, ih.1, ih.2]
      refine ⟨rfl, ?_⟩
      by_cases hk : Odd k <;> simp [hk, Nat.odd_add_one]

/-- Wrappers make of a literal what it denotes under them. -/
theorem denotes_applyAll (ws : List Wrapper) (l : Literal) :
    Denotes ws l (applyAll ws (some l)) where
  bare := fun h => applyAll_parens h _
  signless := applyAll_signless
  least := by
    rintro rfl hpos
    rw [applyAll_least, if_neg (Nat.ne_of_gt hpos)]
  int := by
    rintro v rfl hleast
    by_cases hv : v = Int64.minValue
    · obtain rfl := hv
      have hzero := hleast rfl
      rw [applyAll_least, hzero, if_pos rfl]
      exact ⟨_, rfl, by simp⟩
    · obtain ⟨w, hw, -, htoInt⟩ := applyAll_int hv ws
      exact ⟨w, hw, htoInt⟩
  float := by
    rintro x rfl
    exact ⟨applyAll_float x ws, iterate_neg x (negations ws)⟩

end Wrapper

namespace Node

/-- `n` is the node `core` under wrappers, the outermost first: each is the operator of a node
whose first child is what it is around. Further children, payloads and types play no part. -/
inductive Under : List Wrapper → Node → Node → Prop where
  | bare (core : Node) : Under [] core core
  | wrapped (w : Wrapper) {ws : List Wrapper} {core x : Node} (more : List Node)
      (payload : Option Payload) (type : Option Ty) :
      Under ws core x → Under (w :: ws) core (mk w.op (x :: more) payload type)

/-- The node is a literal node, and carries the literal. -/
structure Carries (n : Node) (l : Literal) : Prop where
  op_mem : n.op ∈ [Op.boolLit, Op.intLit, Op.floatLit, Op.stringLit]
  literal : n.literal? = some l

/-- The node is a sign or a pair of parentheses. -/
def IsWrapper (n : Node) : Prop := ∃ w : Wrapper, n.op = w.op

variable {ws : List Wrapper} {core n : Node} {l : Literal}

/-- The value of a node is what the wrappers make of the value inside. -/
theorem Under.constant_eq (h : Under ws core n) :
    n.constant = core.constant.map (Wrapper.applyAll ws) := by
  induction h with
  | bare core => cases hcore : core.constant <;> rfl
  | @wrapped w ws core x more payload type _ ih =>
      cases w <;>
        · simp only [Wrapper.op, constant, ih]
          cases core.constant <;> rfl

/-- The value of a literal node is its literal. -/
theorem Carries.constant_eq (h : n.Carries l) : n.constant = .ok (some l) := by
  obtain ⟨op, args, payload, type⟩ := n
  obtain ⟨hop, hliteral⟩ := h
  have hpayload : payload = some (.literal l) := by
    unfold literal? at hliteral
    split at hliteral
    · rename_i m hm
      cases hliteral
      exact hm
    · cases hliteral
  simp only [Node.op, List.mem_cons, List.not_mem_nil, or_false] at hop
  rw [hpayload]
  rcases hop with rfl | rfl | rfl | rfl <;> rw [constant]

/-- A node that is neither a wrapper nor a literal has no value. -/
theorem constant_eq_none (hwrapper : ¬ n.IsWrapper) (hliteral : ∀ l, ¬ n.Carries l) :
    n.constant = .ok none := by
  obtain ⟨op, args, payload, type⟩ := n
  by_cases hop : op ∈ [Op.boolLit, .intLit, .floatLit, .stringLit]
  -- A literal node that carries something else, or nothing.
  · have hpayload : ∀ l, payload ≠ some (.literal l) := by
      rintro l rfl
      exact hliteral l ⟨hop, rfl⟩
    simp only [List.mem_cons, List.not_mem_nil, or_false] at hop
    rcases hop with rfl | rfl | rfl | rfl <;>
      · rw [constant]
        exact hpayload
  · cases op with
    | parens => exact absurd ⟨.parens, rfl⟩ hwrapper
    | unaryPlus => exact absurd ⟨.plus, rfl⟩ hwrapper
    | negation => exact absurd ⟨.minus, rfl⟩ hwrapper
    | boolLit | intLit | floatLit | stringLit => exact absurd (by decide) hop
    | _ => rfl

/-- A sign or a pair of parentheses around nothing is a fault. -/
theorem constant_eq_error (hwrapper : n.IsWrapper) (hargs : n.args = []) :
    n.constant = .error (.indexOutOfBounds 0 0) := by
  obtain ⟨op, args, payload, type⟩ := n
  obtain ⟨w, rfl : op = w.op⟩ := hwrapper
  obtain rfl : args = [] := hargs
  cases w <;> simp [Wrapper.op, constant]

/-- Every node is under wrappers, as many as there are on the way along first children. -/
theorem exists_under : ∀ n : Node, ∃ ws core, Under ws core n ∧ (core.IsWrapper → core.args = [])
  | mk op args payload type => by
      by_cases hwrapper : (mk op args payload type).IsWrapper
      · obtain ⟨w, rfl : op = w.op⟩ := hwrapper
        match args with
        | [] => exact ⟨[], _, .bare _, fun _ => rfl⟩
        | x :: more =>
            obtain ⟨ws, core, hunder, hcore⟩ := exists_under x
            exact ⟨w :: ws, core, .wrapped w more payload type hunder, hcore⟩
      · exact ⟨[], _, .bare _, fun h => absurd h hwrapper⟩

/-- The constant value of any node. Under wrappers a literal has the value that it denotes
there, and anything else has none. Parentheses make no difference, and two minus signs cancel where
there is a value. Every node is something under wrappers; where these are around nothing, it has no
value because its first child is missing. -/
theorem constant_signed :
    (∀ ws core n, Under ws core n →
      (∀ l, core.Carries l → ∃ l?, n.constant = .ok l? ∧ Wrapper.Denotes ws l l?) ∧
      (¬ core.IsWrapper → (∀ l, ¬ core.Carries l) → n.constant = .ok none)) ∧
    (∀ ws ws' core n n', Under ws core n → Under ws' core n' →
      ws.filter (· ≠ .parens) = ws'.filter (· ≠ .parens) → n'.constant = n.constant) ∧
    (∀ before between after core n n' l,
      Under (before ++ .minus :: between ++ .minus :: after) core n →
        Under (before ++ between ++ after) core n' → n.constant = .ok (some l) →
          n'.constant = .ok (some l)) ∧
    ∀ n, ∃ ws core, Under ws core n ∧
      (core.IsWrapper → core.args = [] ∧ n.constant = .error (.indexOutOfBounds 0 0)) := by
  refine ⟨fun ws core n h => ⟨fun l hl => ?_, fun hwrapper hliteral => ?_⟩,
    fun ws ws' core n n' h h' heq => ?_, fun before between after core n n' l h h' hl => ?_,
    fun n => ?_⟩
  · refine ⟨_, ?_, Wrapper.denotes_applyAll ws l⟩
    rw [h.constant_eq, hl.constant_eq]
    rfl
  · rw [h.constant_eq, constant_eq_none hwrapper hliteral]
    exact congrArg Except.ok (Wrapper.applyAll_none ws)
  -- Parentheses change no value, so the other wrappers alone decide.
  · have hall : Wrapper.applyAll ws' = Wrapper.applyAll ws := by
      funext l?
      rw [← Wrapper.applyAll_filter ws', ← heq, Wrapper.applyAll_filter]
    rw [h'.constant_eq, h.constant_eq, hall]
  · rw [h.constant_eq] at hl
    rw [h'.constant_eq]
    cases hcore : core.constant with
    | error f =>
        rw [hcore] at hl
        cases hl
    | ok l? =>
        rw [hcore] at hl
        exact congrArg Except.ok (Wrapper.applyAll_minus_minus (Except.ok.inj hl))
  · obtain ⟨ws, core, hunder, hcore⟩ := exists_under n
    refine ⟨ws, core, hunder, fun hwrapper => ⟨hcore hwrapper, ?_⟩⟩
    rw [hunder.constant_eq, constant_eq_error hwrapper (hcore hwrapper)]
    rfl

/-- The least integer under a minus sign in parentheses has no value, and the greatest one under two
minus signs has its own. -/
theorem constant_signed_bounds :
    (unary .negation (parens (unary .unaryPlus (intLit Int64.minValue)))).constant = .ok none ∧
      ∃ w : Int64, (unary .negation (parens (unary .negation (intLit Int64.maxValue)))).constant =
        .ok (some (.int w)) ∧ w.toInt = 2 ^ 63 - 1 := by
  obtain ⟨hvalue, -⟩ := constant_signed
  have hcarries : ∀ v : Int64, (intLit v).Carries (.int v) := fun v =>
    ⟨List.mem_cons_of_mem _ List.mem_cons_self, rfl⟩
  refine ⟨?_, ?_⟩
  · have hunder : Under [.minus, .parens, .plus] (intLit Int64.minValue)
        (unary .negation (parens (unary .unaryPlus (intLit Int64.minValue)))) :=
      .wrapped .minus [] _ _ (.wrapped .parens [] _ _ (.wrapped .plus [] _ _ (.bare _)))
    obtain ⟨l?, hconstant, hdenotes⟩ := (hvalue _ _ _ hunder).1 _ (hcarries _)
    rw [hconstant, hdenotes.least rfl (by decide)]
  · have hunder : Under [.minus, .parens, .minus] (intLit Int64.maxValue)
        (unary .negation (parens (unary .negation (intLit Int64.maxValue)))) :=
      .wrapped .minus [] _ _ (.wrapped .parens [] _ _ (.wrapped .minus [] _ _ (.bare _)))
    obtain ⟨l?, hconstant, hdenotes⟩ := (hvalue _ _ _ hunder).1 _ (hcarries _)
    obtain ⟨w, rfl, hw⟩ := hdenotes.int _ rfl (fun h => absurd h (by decide))
    exact ⟨w, hconstant, hw.trans (by decide)⟩

end Node

end TypedPhp
