import TypedPhp.Proofs.SymbolTable.Calls
import TypedPhp.Proofs.SymbolTable.Writes

set_option autoImplicit false

/-!
# Histories of a table

A history runs operations on an empty table, one after the other, and logs those that are accepted
with their answers; one that faults is skipped, and what it has written stays. Which operation faults
can be read off the log (`SymbolTable.History.Refuses`), and so can the table, the references that it
has issued and the places that its answers tell (`SymbolTable.History.Sound`). One more operation
either is refused or leads to such a table again (`SymbolTable.History.Sound.outcome`), and so it is
after every history (`SymbolTable.History.sound`).
-/

namespace TypedPhp.SymbolTable

/-! ## Operations -/

/-- An operation on a table. -/
inductive Operation where
  | build (call : Call)
  | freeze
  | funcsOf (ty : Ty)
  | fieldsOf (ty : Ty)

/-- What an operation answers. -/
inductive Answer where
  | built (answer : Call.Answer)
  | frozen
  | funcs (ids : List Nat)
  | fields (refs : List FieldRef)

/-- The reference that an answer issues. -/
def Answer.ref? : Answer → Option ClassRef
  | .built (.declared ref) => some ref
  | _ => none

/-- Runs a call write by write. -/
def Call.perform : Call → Action Call.Answer
  | declare name => .declared <$> Action.declare name
  | define c => .defined <$> Action.define c
  | add f => .added <$> Action.add f

/-- Every call is atomic, on every table. -/
theorem Call.run_perform (t : SymbolTable) (call : Call) :
    call.perform.run t = Action.settle t (call.result t) := by
  cases call with
  | declare name =>
      rw [perform, Action.run_map, Action.run_declare, result]
      cases t.declareClass name <;> rfl
  | define c =>
      rw [perform, Action.run_map, Action.run_define, result]
      cases t.defineClass c <;> rfl
  | add f =>
      rw [perform, Action.run_map, Action.run_add, result]
      cases t.addFunc f <;> rfl

namespace Operation

/-- Runs an operation write by write. -/
def perform : Operation → Action Answer
  | .build call => .built <$> call.perform
  | .freeze => (fun _ => .frozen) <$> Action.freeze
  | .funcsOf ty => .funcs <$> Action.read (·.funcsOf ty)
  | .fieldsOf ty => .fields <$> Action.read (·.fieldsOf ty)

/-- The call of an operation that builds the table. -/
def call? : Operation → Option Call
  | .build call => some call
  | _ => none

/-- The answer of an operation and the table after it. -/
def result (t : SymbolTable) : Operation → Except Fault (Answer × SymbolTable)
  | .build call => (call.result t).map fun p => (.built p.1, p.2)
  | .freeze => t.freeze.map fun next => (.frozen, next)
  | .funcsOf ty => (t.funcsOf ty).map fun ids => (.funcs ids, t)
  | .fieldsOf ty => (t.fieldsOf ty).map fun refs => (.fields refs, t)

variable {t : SymbolTable} {op : Operation}

/-- Every operation is atomic, on every table. -/
theorem run_perform (t : SymbolTable) (op : Operation) :
    op.perform.run t = Action.settle t (op.result t) := by
  cases op with
  | build call =>
      rw [perform, Action.run_map, Call.run_perform, result]
      cases call.result t <;> rfl
  | freeze =>
      rw [perform, Action.run_map, Action.run_freeze, result]
      cases t.freeze <;> rfl
  | funcsOf ty =>
      rw [perform, Action.run_map, Action.run_read, result]
      cases t.funcsOf ty <;> rfl
  | fieldsOf ty =>
      rw [perform, Action.run_map, Action.run_read, result]
      cases t.fieldsOf ty <;> rfl

/-- An operation that faults leaves the table as it was, on every table. -/
theorem eq_of_run_eq_error {fault : Fault} {next : SymbolTable}
    (h : op.perform.run t = .error fault next) : next = t := by
  rw [run_perform] at h
  cases hresult : op.result t with
  | ok p =>
      rw [hresult] at h
      cases h
  | error _ =>
      rw [hresult] at h
      cases h
      rfl

end Operation

/-- A table and the operations that it has accepted, each with its answer. -/
structure History where
  table : SymbolTable
  log : List (Operation × Answer)

namespace History

/-- The history before any operation. -/
def start : History := ⟨.empty, []⟩

/-- Logs an operation that is accepted. -/
def push (h : History) (op : Operation) (answer : Answer) (t : SymbolTable) : History :=
  ⟨t, h.log ++ [(op, answer)]⟩

/-- Runs one more operation; one that faults is not logged, and what it has written stays. -/
def next (h : History) (op : Operation) : History :=
  match op.perform.run h.table with
  | .ok answer t => h.push op answer t
  | .error _ t => ⟨t, h.log⟩

/-- The history of operations. -/
def of (ops : List Operation) : History := ops.foldl next start

/-- The accepted calls. -/
def calls (h : History) : List Call := h.log.filterMap (·.1.call?)

/-- The references to classes that are issued, in order. -/
def issued (h : History) : List ClassRef := h.log.filterMap (·.2.ref?)

/-- A freeze is accepted. -/
def Frozen (h : History) : Prop := .freeze ∈ h.log.map (·.1)

/-- The operations that fault: every change after a freeze, a second declaration, definition or
addition of a name, a definition of a name that is not declared, and a look-up of an array type
before a freeze. -/
def Refuses (h : History) : Operation → Prop
  | .build (.declare name) => h.Frozen ∨ name ∈ declared h.calls
  | .build (.define c) =>
      h.Frozen ∨ c.name ∉ declared h.calls ∨ c.name ∈ (defined h.calls).map (·.name)
  | .build (.add f) => h.Frozen ∨ f.qualifiedName ∈ (added h.calls).map (·.qualifiedName)
  | .freeze => h.Frozen
  | .funcsOf ty | .fieldsOf ty => ¬ h.Frozen ∧ ∃ elem, ty = .array elem

/-! ## What the log tells -/

/-- The references to the classes that calls declare. -/
def refs (calls : List Call) : List ClassRef :=
  (declared calls).zipIdx.map fun p => ⟨p.2, p.1⟩

/-- An answer tells the place where calls have put what one of them is about. -/
def Places (calls : List Call) : Call → Call.Answer → Prop
  | .declare name, .declared ref => ref.name = name ∧ (declared calls)[ref.id]? = some name
  | .define c, .defined id => c ∈ defined calls ∧ (declared calls)[id]? = some c.name
  | .add f, .added id => (added calls)[id]? = some f
  | _, _ => False

/-- The log of a history tells its table, the references that it has issued and what its answers
refer to. -/
structure Sound (h : History) : Prop where
  lawful : Lawful h.calls
  ofOpen : ¬ h.Frozen → h.table = tableOf h.calls
  ofFrozen : h.Frozen → h.table = frozenOf h.calls
  issued : h.issued = refs h.calls
  answers : ∀ call answer, (.build call, .built answer) ∈ h.log → Places h.calls call answer

/-- An operation faults and changes nothing, or it leads to a table that the log tells. -/
inductive Outcome (h : History) (op : Operation) : Prop where
  | refused (fault : Fault) : h.Refuses op → op.result h.table = .error fault → Outcome h op
  | accepted (answer : Answer) (t : SymbolTable) : ¬ h.Refuses op →
      op.result h.table = .ok (answer, t) → Sound (h.push op answer t) → Outcome h op

variable {h : History} {op : Operation} {answer : Answer} {t : SymbolTable}

section Push

@[simp] theorem table_push : (h.push op answer t).table = t := rfl
@[simp] theorem log_push : (h.push op answer t).log = h.log ++ [(op, answer)] := rfl

@[simp]
theorem calls_push : (h.push op answer t).calls = h.calls ++ op.call?.toList := by
  cases hcall : op.call? <;> simp [calls, hcall]

@[simp]
theorem issued_push : (h.push op answer t).issued = h.issued ++ answer.ref?.toList := by
  cases href : answer.ref? <;> simp [issued, href]

@[simp]
theorem frozen_push : (h.push op answer t).Frozen ↔ h.Frozen ∨ op = .freeze := by
  simp [Frozen, eq_comm]

end Push

section Answers

variable {calls : List Call} {call : Call} {answer : Call.Answer}

/-- The references of one more call. -/
theorem refs_snoc (calls : List Call) (call : Call) :
    refs (calls ++ [call]) = refs calls ++ (Answer.built (answerOf calls call)).ref?.toList := by
  cases call with
  | declare name => simp [refs, List.zipIdx_append, answerOf, Answer.ref?]
  | define c => simp [refs, answerOf, Answer.ref?]
  | add f => simp [refs, answerOf, Answer.ref?]

/-- More calls move nothing. -/
theorem Places.append (hplaces : Places calls call answer) (more : List Call) :
    Places (calls ++ more) call answer := by
  cases call with
  | declare name =>
      cases answer with
      | declared ref =>
          obtain ⟨hname, hget⟩ := hplaces
          refine ⟨hname, ?_⟩
          rw [declared_append]
          exact getElem?_append_of_eq_some hget (declared more)
      | _ => exact hplaces.elim
  | define c =>
      cases answer with
      | defined id =>
          obtain ⟨hc, hget⟩ := hplaces
          rw [Places, defined_append, declared_append]
          exact ⟨List.mem_append_left _ hc, getElem?_append_of_eq_some hget (declared more)⟩
      | _ => exact hplaces.elim
  | add f =>
      cases answer with
      | added id =>
          rw [Places, added_append]
          exact getElem?_append_of_eq_some hplaces (added more)
      | _ => exact hplaces.elim

/-- A call that is accepted is told its place. -/
theorem places_answerOf (hadmits : Admits calls call) :
    Places (calls ++ [call]) call (answerOf calls call) := by
  cases call with
  | declare name => simp [Places, answerOf]
  | define c => simp [Places, answerOf, List.getElem?_idxOf hadmits.1]
  | add f => simp [Places, answerOf]

end Answers

namespace Sound

/-- The history before any operation. -/
theorem start : Sound start where
  lawful := .nil
  ofOpen _ := rfl
  ofFrozen hfrozen := absurd hfrozen List.not_mem_nil
  issued := rfl
  answers _ _ hmem := absurd hmem List.not_mem_nil

/-- A read. -/
theorem push_read (hs : Sound h) (hop : op ≠ .freeze) (hcall : op.call? = none)
    (href : answer.ref? = none) : Sound (h.push op answer h.table) := by
  constructor
  · simpa [hcall] using hs.lawful
  · simpa [hcall, hop] using hs.ofOpen
  · simpa [hcall, hop] using hs.ofFrozen
  · simpa [hcall, href] using hs.issued
  · intro call a hmem
    rw [log_push, List.mem_append, List.mem_singleton, Prod.mk.injEq] at hmem
    rcases hmem with hmem | ⟨rfl, -⟩
    · simpa [hcall] using hs.answers call a hmem
    · cases hcall

/-- A freeze. -/
theorem push_freeze (hs : Sound h) :
    Sound (h.push .freeze .frozen (frozenOf h.calls)) := by
  constructor
  · simpa [Operation.call?] using hs.lawful
  · intro hopen
    simp at hopen
  · intro _
    simp [Operation.call?]
  · simpa [Operation.call?, Answer.ref?] using hs.issued
  · intro call a hmem
    rw [log_push, List.mem_append, List.mem_singleton, Prod.mk.injEq] at hmem
    rcases hmem with hmem | ⟨hop, -⟩
    · simpa [Operation.call?] using hs.answers call a hmem
    · cases hop

/-- A call. -/
theorem push_build (hs : Sound h) (hopen : ¬ h.Frozen) {call : Call}
    (hadmits : Admits h.calls call) :
    Sound (h.push (.build call) (.built (answerOf h.calls call))
      (tableOf (h.calls ++ [call]))) := by
  constructor
  · simpa [Operation.call?] using hs.lawful.snoc hadmits
  · intro _
    simp [Operation.call?]
  · intro hfrozen
    simp [hopen] at hfrozen
  · rw [issued_push, calls_push, Operation.call?, Option.toList_some, refs_snoc, hs.issued]
  · intro call' a hmem
    rw [calls_push, Operation.call?, Option.toList_some]
    rw [log_push, List.mem_append, List.mem_singleton, Prod.mk.injEq, Operation.build.injEq,
      Answer.built.injEq] at hmem
    rcases hmem with hmem | ⟨rfl, rfl⟩
    · exact (hs.answers call' a hmem).append [call]
    · exact places_answerOf hadmits

/-- The table is frozen after a freeze. -/
theorem isFrozen_iff (hs : Sound h) : h.table.isFrozen = true ↔ h.Frozen := by
  by_cases hfrozen : h.Frozen
  · rw [hs.ofFrozen hfrozen]
    exact iff_of_true rfl hfrozen
  · rw [hs.ofOpen hfrozen]
    exact iff_of_false Bool.false_ne_true hfrozen

end Sound

/-! ## Which operations fault -/

/-- A call is refused after a freeze or if the calls before it do not admit it. -/
theorem refuses_build {call : Call} :
    h.Refuses (.build call) ↔ h.Frozen ∨ ¬ Admits h.calls call := by
  cases call with
  | declare name => simp [Refuses, Admits]
  | define c => simp [Refuses, Admits, imp_iff_not_or]
  | add f => simp [Refuses, Admits]

theorem result_of_frozen (hfrozen : t.isFrozen = true) (call : Call) :
    call.result t = .error .frozen := by
  cases call with
  | declare name => simp [Call.result, declareClass, hfrozen, Except.map]
  | define c => simp [Call.result, defineClass, hfrozen, Except.map]
  | add f => simp [Call.result, addFunc, hfrozen, Except.map]

theorem lookup_array_of_open {α : Type} (hopen : t.isFrozen = false) (i : TypeIndex α) (elem : Ty) :
    t.lookup i (.array elem) = .error .notFrozen := by
  simp [lookup, hopen]

theorem lookup_of_not_array {α : Type} {ty : Ty} (hty : ¬ ∃ elem, ty = .array elem)
    (i : TypeIndex α) : t.lookup i ty = .ok (i.find ty) := by
  cases ty with
  | array elem => exact absurd ⟨elem, rfl⟩ hty
  | _ => rfl

namespace Sound

/-- A call faults if it is refused. -/
theorem outcome_build (hs : Sound h) (call : Call) : Outcome h (.build call) := by
  by_cases hfrozen : h.Frozen
  · refine .refused .frozen (refuses_build.2 (.inl hfrozen)) ?_
    rw [Operation.result, result_of_frozen (hs.isFrozen_iff.2 hfrozen)]
    rfl
  · have htable := hs.ofOpen hfrozen
    by_cases hadmits : Admits h.calls call
    · refine .accepted _ _ ?_ ?_ (hs.push_build hfrozen hadmits)
      · rw [refuses_build, not_or, not_not]
        exact ⟨hfrozen, hadmits⟩
      · rw [Operation.result, htable, result_tableOf hs.lawful hadmits]
        rfl
    · obtain ⟨fault, hresult⟩ := result_tableOf_of_not_admits hs.lawful hadmits
      refine .refused fault (refuses_build.2 (.inr hadmits)) ?_
      rw [Operation.result, htable, hresult]
      rfl

/-- A freeze faults after a freeze. -/
theorem outcome_freeze (hs : Sound h) : Outcome h .freeze := by
  by_cases hfrozen : h.Frozen
  · refine .refused .frozenTwice hfrozen ?_
    simp [Operation.result, SymbolTable.freeze, hs.isFrozen_iff.2 hfrozen, Except.map]
  · refine .accepted .frozen (frozenOf h.calls) hfrozen ?_ hs.push_freeze
    rw [Operation.result, hs.ofOpen hfrozen, freeze_tableOf]
    rfl

/-- A look-up faults for an array type before a freeze. -/
theorem outcome_lookup (hs : Sound h) {α : Type} {i : TypeIndex α} {ty : Ty}
    {answers : List α → Answer}
    (hresult : op.result h.table = (h.table.lookup i ty).map fun found => (answers found, h.table))
    (hrefuses : h.Refuses op ↔ ¬ h.Frozen ∧ ∃ elem, ty = .array elem)
    (hop : op ≠ .freeze) (hcall : op.call? = none) (href : ∀ found, (answers found).ref? = none) :
    Outcome h op := by
  by_cases hrefused : ¬ h.Frozen ∧ ∃ elem, ty = .array elem
  · refine .refused .notFrozen (hrefuses.2 hrefused) ?_
    obtain ⟨hopen, elem, rfl⟩ := hrefused
    rw [← hs.isFrozen_iff, Bool.not_eq_true] at hopen
    rw [hresult, lookup_array_of_open hopen]
    rfl
  · refine .accepted (answers (i.find ty)) h.table (mt hrefuses.1 hrefused) ?_
      (hs.push_read hop hcall (href _))
    have hfound : h.table.lookup i ty = .ok (i.find ty) := by
      by_cases hfrozen : h.Frozen
      · exact lookup_eq_ok (hs.isFrozen_iff.2 hfrozen) i ty
      · exact lookup_of_not_array (not_and.1 hrefused hfrozen) i
    rw [hresult, hfound]
    rfl

/-- An operation faults exactly if it is refused, and otherwise the log tells the next table. -/
theorem outcome (hs : Sound h) (op : Operation) : Outcome h op := by
  cases op with
  | build call => exact hs.outcome_build call
  | freeze => exact hs.outcome_freeze
  | funcsOf ty =>
      exact hs.outcome_lookup rfl Iff.rfl Operation.noConfusion rfl fun _ => rfl
  | fieldsOf ty =>
      exact hs.outcome_lookup rfl Iff.rfl Operation.noConfusion rfl fun _ => rfl

/-- One more operation keeps a history sound. -/
theorem next (hs : Sound h) (op : Operation) : Sound (h.next op) := by
  cases hs.outcome op with
  | refused fault _ hresult =>
      rw [History.next, Operation.run_perform, hresult]
      exact hs
  | accepted answer t _ hresult hnext =>
      rw [History.next, Operation.run_perform, hresult]
      exact hnext

end Sound

/-- Every history is sound. -/
theorem sound (ops : List Operation) : Sound (of ops) := by
  induction ops using List.reverseRecOn with
  | nil => exact .start
  | append_singleton ops op ih =>
      rw [of, List.foldl_append]
      exact ih.next op

end History
end TypedPhp.SymbolTable
