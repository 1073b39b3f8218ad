import TypedPhp.Generate.Program
import TypedPhp.Proofs.Runs.Building

set_option autoImplicit false

/-!
# Expressions change the source only

The depth of expressions is counted up and down by hand, around the parts of an expression, the
elements of array and tuple literals and the arguments of calls. On every way through such a step
that returns, the two balance, whatever the state and the stack: in the end only the source has
changed (`Build.SourceOnly`). The induction is on the stack and, below it, on the type.
-/

namespace TypedPhp.Build

variable {ρ α β : Type}

/-- Every run of a step that returns has changed the source only. -/
abbrev SourceOnly (x : Build ρ α) : Prop := Respects Generator.OnlySource x

namespace SourceOnly

/-! ## Combinations of steps -/

section Combinations

variable {x y : Build ρ α}

theorem pure (a : α) : SourceOnly (Pure.pure a : Build ρ α) :=
  .of_runs fun g => Runs.pure (.refl g)

theorem throw (f : Fault) : SourceOnly (MonadExcept.throw f : Build ρ α) :=
  .of_runs fun _ => Runs.throw trivial

theorem draw (d : Env → Draw ρ α) : SourceOnly (Build.draw d) :=
  .of_runs fun _ => draw_runs_any fun _ source => ⟨source, rfl⟩

theorem get : SourceOnly (MonadState.get : Build ρ (Generator ρ)) :=
  .of_runs fun g => get_runs (.refl g)

theorem lift (r : Except Fault α) : SourceOnly (liftM r : Build ρ α) := by
  apply Respects.of_runs
  intro g
  cases r with
  | error f => exact Runs.error rfl trivial
  | ok a => exact Runs.ok rfl (.refl g)

theorem bind {k : α → Build ρ β} (hx : SourceOnly x) (hk : ∀ a, SourceOnly (k a)) :
    SourceOnly (x >>= k) :=
  hx.bind_of hk .trans

theorem ite_bind {c : Prop} [Decidable c] {k : α → Build ρ β} (hx : SourceOnly x)
    (hy : SourceOnly y) (hk : ∀ a, SourceOnly (k a)) :
    SourceOnly (if c then x >>= k else y >>= k) :=
  .ite (hx.bind hk) (hy.bind hk)

theorem map (f : α → β) (hx : SourceOnly x) : SourceOnly (f <$> x) := by
  have hmap : f <$> x = x >>= fun a => Pure.pure (f a) := map_eq_pure_bind f x
  rw [hmap]
  exact hx.bind fun a => pure (f a)

/-- The level that a step is deeper is counted down again after it. -/
theorem deeper (hx : SourceOnly x) : SourceOnly (deeper x) := by
  apply Respects.of_runs
  intro g
  apply deeper_runs
  exact (hx.runs { g with exprDepth := g.exprDepth + 1 }).mono fun _ _ h => h.shallower

theorem times (hx : SourceOnly x) : ∀ n, SourceOnly (Draw.times x n)
  | 0 => pure []
  | n + 1 => hx.bind fun a => (times hx n).bind fun as => pure (a :: as)

theorem each {f : α → Build ρ β} (hf : ∀ a, SourceOnly (f a)) :
    ∀ as, SourceOnly (Draw.each f as)
  | [] => pure []
  | a :: as => (hf a).bind fun b => (each hf as).bind fun bs => pure (b :: bs)

end Combinations

variable [WordSource ρ]

/-! ## Values, members of classes and calls -/

theorem reuse {p : Double} {t : Ty} {fresh : Build ρ Node} (hfresh : SourceOnly fresh) :
    SourceOnly (reuse p t fresh) := by
  unfold Build.reuse
  refine (draw _).bind fun b => ?_
  apply Respects.ite
  · refine get.bind fun g => ?_
    split
    · exact pure _
    · exact hfresh
  · exact hfresh

theorem receiver (c : ClassRef) : SourceOnly (receiver c : Build ρ Node) := by
  refine get.bind fun g => ?_
  apply Respects.ite
  · exact pure _
  · exact reuse (pure _)

theorem fieldOf (t : Ty) : SourceOnly (fieldOf t : Build ρ (Option Node)) := by
  refine get.bind fun g => (lift _).bind fun members => ?_
  split
  · exact pure none
  · exact (draw _).bind fun m => (receiver m.1).bind fun object => pure _

/-- An array literal counts the level of its elements up and down. -/
theorem arrayLit {elem : Ty} {element : Build ρ Node} (h : SourceOnly element) :
    SourceOnly (arrayLit elem element) := by
  have helems : SourceOnly (do
      let g ← MonadState.get
      let n ← Build.draw fun _ => Draw.range 1 (if g.config.maxExprDepth ≤ g.exprDepth then 2 else 4)
      Draw.times element n : Build ρ (List Node)) :=
    get.bind fun g => (draw _).bind fun n => h.times n
  exact helems.deeper.bind fun elems => pure _

section Choosers

variable {choose : Chooser ρ}

theorem mixed (hch : ∀ c, SourceOnly (choose c)) (permitArray : Bool) :
    SourceOnly (mixed choose permitArray) := by
  refine get.bind fun g => (draw _).bind fun roll => ?_
  split
  · exact hch _
  · exact hch _
  · exact hch _
  · exact hch _
  · exact (draw _).bind fun k => arrayLit (hch _)

mutual

/-- A value of a type. -/
theorem valueIn (hch : ∀ c, SourceOnly (choose c)) : ∀ t, SourceOnly (valueIn choose t)
  | .scalar k => by
      cases k with
      | void => exact throw _
      | mixed => exact mixed hch true
      | bool | int | float | string => exact hch _
  | .enum e => reuse ((draw _).bind fun l => pure _)
  | .array elem => reuse (arrayLit (valueIn hch elem))
  | .tuple elems => reuse ((valuesIn hch elems).deeper.bind fun args => pure _)
  | .object c => reuse (pure _)
  | .nullable inner => by
      rw [Build.valueIn]
      refine (draw _).bind fun roll => ?_
      apply Respects.ite
      · exact pure _
      · apply Respects.ite
        · refine get.bind fun g => ?_
          split
          · exact pure _
          · exact valueIn hch inner
        · exact valueIn hch inner
  | .union x y => by
      rw [Build.valueIn]
      exact reuse ((draw _).bind fun b => .ite (valueIn hch x) (valueIn hch y))
  | .callable f => throw _

theorem valuesIn (hch : ∀ c, SourceOnly (choose c)) : ∀ ts, SourceOnly (valuesIn choose ts)
  | [] => pure []
  | t :: ts => (valueIn hch t).bind fun x => (valuesIn hch ts).bind fun xs => pure (x :: xs)

end

variable (hch : ∀ c, SourceOnly (choose c))

include hch

/-- A call counts the level of its arguments up and down before its object is drawn. -/
theorem callIn (id : Nat) : SourceOnly (callIn choose id) := by
  refine get.bind fun g => (lift _).bind fun f => ?_
  have hargs : SourceOnly (do
      let n ← Build.draw fun _ => Draw.range f.minArgs f.params.length
      Draw.each (argument choose) (f.params.take n) : Build ρ (List Node)) :=
    (draw _).bind fun n => each (fun p : Param => (valueIn hch p.type).bind fun arg => pure _) _
  refine hargs.deeper.bind fun args => ?_
  split
  · exact (receiver _).bind fun object => pure _
  · exact pure _

theorem callOf (t : Ty) : SourceOnly (callOf choose t) := by
  refine get.bind fun g => (lift _).bind fun ids => ?_
  split
  · exact pure none
  · exact (draw _).bind fun id => (callIn hch id).bind fun call => pure _

/-! ## Forms -/

omit [WordSource ρ] in
theorem pair (k : Primitive) : SourceOnly (pair choose k) :=
  (hch _).bind fun x => (hch _).bind fun y => pure (x, y)

theorem comparison (op : Op) : SourceOnly (comparison choose op) := by
  refine (draw _).bind fun k => (pair hch k).bind fun xy => ?_
  dsimp only
  split <;> exact pure _

theorem ternary (k : Primitive) : SourceOnly (ternary choose k) :=
  (hch _).bind fun _ => (pair hch k).bind fun _ => (draw _).bind fun _ => (draw _).bind fun _ =>
    pure _

omit [WordSource ρ] in
theorem nullCoalesce (k : Primitive) : SourceOnly (nullCoalesce choose k) := by
  refine get.bind fun g => ?_
  split
  · exact pure none
  · exact (hch _).bind fun rhs => pure _

theorem stringIndex : SourceOnly (stringIndex choose) := by
  refine get.bind fun g => ?_
  split
  · exact pure none
  · refine (draw _).bind fun roll => ?_
    apply Respects.ite
    · exact (hch _).bind fun key => pure _
    · exact (pure _).bind fun key => pure _

/-- An expression of a form. -/
theorem ofForm (f : ExprForm) : SourceOnly (ofForm choose f) := by
  cases f with
  | compare op => exact (comparison hch op).map _
  | spaceship => exact (draw _).bind fun k => (pair hch k).bind fun _ => pure _
  | logical op =>
      refine (pair hch .bool).bind fun xy => ?_
      dsimp only
      split <;> exact pure _
  | not => exact (hch _).bind fun x => pure _
  | var k => exact get.bind fun g => pure _
  | literal k => exact (draw _).map _
  | call k => exact callOf hch _
  | field k => exact fieldOf _
  | tupleElem k => exact draw fun env => Draw.tupleElem env k
  | nullCoalesce k => exact nullCoalesce hch k
  | ternary k => exact (ternary hch k).map _
  | cast k => exact (mixed hch false).bind fun x => pure _
  | intUnary op => exact (hch _).bind fun x => pure _
  | intArith op | intBits op | shift op | intExp | safeDiv k | safeMod | floatArith op | concat =>
      exact (pair hch _).bind fun _ => pure _
  | interpolated => exact (draw _).map _
  | stringIndex => exact stringIndex hch

/-- An expression of a drawn option, its fallback, or a literal. -/
theorem ofChoice (c : Category) (choice : Choice ExprForm) :
    SourceOnly (ofChoice choose c choice) := by
  refine (ofForm hch _).bind fun n? => ?_
  split
  · exact pure _
  · split
    · exact draw _
    · refine (ofForm hch _).bind fun m? => ?_
      split
      · exact pure _
      · exact draw _

/-- An expression counts the level of its parts up and down, unless it is a literal beyond the
greatest depth. -/
theorem chooseWith (c : Category) : SourceOnly (chooseWith choose c) := by
  refine get.bind fun g => ?_
  apply Respects.ite
  · exact draw _
  · refine (lift _).bind fun forms => (draw _).bind fun choice => ?_
    refine (ofChoice hch c choice).deeper.bind fun n => (draw _).bind fun b => ?_
    exact .ite (pure _) (pure _)

end Choosers

/-! ## Whole expressions -/

/-- An expression changes the source only, on a stack of any size. -/
theorem chooseOn : ∀ stack c, SourceOnly (chooseOn stack c : Build ρ Node)
  | 0, _ => throw _
  | stack + 1, c => chooseWith (chooseOn stack) c

theorem onStack {x : Chooser ρ → Build ρ α}
    (hx : ∀ choose, (∀ c, SourceOnly (choose c)) → SourceOnly (x choose)) :
    SourceOnly (onStack x) :=
  get.bind fun _ => hx _ (chooseOn _)

theorem choose (c : Category) : SourceOnly (choose c : Build ρ Node) :=
  onStack fun _ hch => hch c

theorem value (t : Ty) : SourceOnly (value t : Build ρ Node) :=
  onStack fun _ hch => valueIn hch t

theorem callOfType (t : Ty) : SourceOnly (callOfType t : Build ρ (Option Node)) :=
  onStack fun _ hch => callOf hch t

/-! ## What simple statements hold -/

theorem notPlace (place : Node) (t : Ty) :
    ∀ more, SourceOnly (notPlace place t more : Build ρ Node)
  | 0 => value t
  | more + 1 => (value t).bind fun x => .ite (notPlace place t more) (pure x)

theorem assignValue (place : Node) (t : Ty) :
    SourceOnly (assignValue place t : Build ρ (List Node)) := by
  refine (notPlace place t 3).bind fun rhs => ?_
  apply Respects.ite
  · exact .ite ((draw _).bind fun c => pure _) (pure _)
  · exact pure _

theorem assignTo (place : Node) : SourceOnly (assignTo place : Build ρ (List Node)) := by
  refine ite_bind (pure false) (draw _) fun isCompound => ?_
  apply Respects.ite
  · exact (value _).bind fun rhs => (draw _).bind fun op => pure _
  · exact assignValue place _

theorem firstCall (t : Ty) : SourceOnly (firstCall t : Build ρ (Option Node)) := by
  unfold Build.firstCall
  split
  · exact (draw _).bind fun wants => .ite (callOfType _) (pure none)
  · exact pure none

theorem firstCast (t : Ty) (x : Node) : SourceOnly (firstCast t x : Build ρ Node) :=
  .ite ((draw _).bind fun _ => .ite (pure _) (pure _)) (pure _)

theorem firstValue (t : Ty) : SourceOnly (firstValue t : Build ρ Node) := by
  refine (firstCall t).bind fun call? => ?_
  split
  · exact firstCast t _
  · exact (value t).bind fun x => firstCast t x

theorem dump : SourceOnly (dump : Build ρ Node) := by
  refine (draw _).bind fun wants => get.bind fun g => ?_
  dsimp only
  split
  · exact (draw _).bind fun t => (value t).bind fun x => pure _
  · exact ((draw _).map _).bind fun x => pure _

theorem echo : SourceOnly (echo : Build ρ Node) := (choose _).bind fun _ => pure _

theorem voidCall : SourceOnly (voidCall : Build ρ Node) := by
  refine (callOfType .void).bind fun call? => ?_
  split
  · exact pure _
  · exact dump

theorem returnOf (result : Ty) : SourceOnly (returnOf result : Build ρ Node) :=
  .ite (pure _) ((value result).bind fun _ => pure _)

end SourceOnly

end TypedPhp.Build
