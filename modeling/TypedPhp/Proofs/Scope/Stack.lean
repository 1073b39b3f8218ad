import Mathlib.Algebra.GroupWithZero.Nat
import Mathlib.Data.List.Induction
import TypedPhp.Proofs.Scope.Frames

set_option autoImplicit false

/-!
# Scopes as stacks of frames

A scope keeps the variables of all frames in one list and only counts those of each frame. Whatever
has been done to it, it stands for a stack of frames (`Scope.Represents`). The step of the simulation
is `Scope.next_above`: an operation on a scope is one on the frames that lie above some other scope. It
is used twice, above the empty scope for every run and above the scope at hand for a balanced run in
a new frame, which therefore gives that scope back (`Scope.Restored`).

What is visible is each name once, bound as it was last, and every search goes through what is
visible (`Scope.Shows`).
-/

namespace TypedPhp.Scope

/-! ## Operations write by write -/

/-- A computation that writes to a scope and keeps what is written when it faults. -/
abbrev Action := EStateM Fault Scope

/-- An operation on a scope. -/
inductive Operation where
  | enter
  | leave
  | push (name : String) (type : Ty)

namespace Operation

/-- Runs an operation write by write. -/
def perform : Operation → Action Unit
  | enter => modify fun s => { s with counts := 0 :: s.counts }
  | leave => do
    match (← get).counts with
    | [] => throw .leaveWithoutFrame
    | n :: counts =>
      modify fun s => { s with counts }
      modify fun s => { s with vars := s.vars.drop n }
  | push name type => do
    match (← get).counts with
    | [] => throw .pushWithoutFrame
    | n :: counts =>
      modify fun s => { s with counts := (n + 1) :: counts }
      modify fun s => { s with vars := ⟨name, type⟩ :: s.vars }

/-- The scope after an operation. -/
def result (s : Scope) : Operation → Except Fault Scope
  | enter => .ok s.enter
  | leave => s.leave
  | push name type => s.push name type

/-- The outcome of an operation that leads to a next scope, or else leaves the scope as it was. -/
def settle (s : Scope) : Except Fault Scope → EStateM.Result Fault Scope Unit
  | .ok next => .ok () next
  | .error fault => .error fault s

/-- Every operation is atomic, on every scope. -/
theorem run_perform (s : Scope) (op : Operation) : op.perform.run s = settle s (op.result s) := by
  obtain ⟨vars, counts⟩ := s
  cases op with
  | enter => rfl
  | leave => cases counts <;> rfl
  | push name type => cases counts <;> rfl

end Operation

/-- One more operation; one that faults is skipped, and what it has written stays. -/
def next (s : Scope) (op : Operation) : Scope :=
  match op.perform.run s with
  | .ok _ s' => s'
  | .error _ s' => s'

/-- The scope after operations. -/
def after (s : Scope) (ops : List Operation) : Scope := ops.foldl next s

/-! ## Frames -/

/-- A stack of frames, the innermost first, each with its variables, the newest first. -/
abbrev Frames := List (List ScopeVar)

namespace Frames

/-- One more operation on frames; one for which there is no frame is skipped. -/
def next : Frames → Operation → Frames
  | fs, .enter => [] :: fs
  | _ :: fs, .leave => fs
  | f :: fs, .push name type => (⟨name, type⟩ :: f) :: fs
  | [], _ => []

/-- The frames after operations. -/
def after (fs : Frames) (ops : List Operation) : Frames := ops.foldl next fs

/-- The scope that has some frames above another scope. -/
def above (base : Scope) (fs : Frames) : Scope :=
  ⟨fs.flatten ++ base.vars, fs.map List.length ++ base.counts⟩

end Frames

variable {base s : Scope} {fs : Frames} {ops : List Operation}

/-- An operation on a scope is one on the frames above another scope, if there is one above or
none below. -/
theorem next_above (h : fs ≠ [] ∨ base = .empty) (op : Operation) :
    (fs.above base).next op = (fs.next op).above base := by
  rw [next, Operation.run_perform]
  cases op with
  | enter => rfl
  | leave =>
      cases fs with
      | nil =>
          obtain rfl := h.resolve_left (fun hne => hne rfl)
          rfl
      | cons f fs =>
          simp [Operation.result, Operation.settle, leave, Frames.above, Frames.next]
  | push name type =>
      cases fs with
      | nil =>
          obtain rfl := h.resolve_left (fun hne => hne rfl)
          rfl
      | cons f fs =>
          simp [Operation.result, Operation.settle, push, Frames.above, Frames.next]

theorem after_append (s : Scope) (ops ops' : List Operation) :
    s.after (ops ++ ops') = (s.after ops).after ops' :=
  List.foldl_append

theorem Frames.after_append (fs : Frames) (ops ops' : List Operation) :
    fs.after (ops ++ ops') = (fs.after ops).after ops' :=
  List.foldl_append

/-- Operations on an empty scope are operations on no frames. -/
theorem after_empty (ops : List Operation) :
    Scope.empty.after ops = (Frames.after [] ops).above .empty := by
  induction ops using List.reverseRecOn with
  | nil => rfl
  | append_singleton ops op ih =>
      rw [after_append, Frames.after_append, ih]
      exact next_above (Or.inr rfl) op

/-! ## What a scope stands for -/

/-- A scope stands for a stack of frames. No counter is more than what is stored, so what is left
or listed is never less than nothing. -/
structure Represents (s : Scope) (fs : Frames) : Prop where
  vars : s.vars = fs.flatten
  counts : s.counts = fs.map List.length
  total : s.counts.sum = s.vars.length
  innermost : s.counts.headD 0 ≤ s.vars.length
  current : s.current = (fs.headD []).reverse

/-- What the frames above an empty scope make up stands for them. -/
theorem represents_above (fs : Frames) : (fs.above .empty).Represents fs where
  vars := List.append_nil _
  counts := List.append_nil _
  total := by simp [Frames.above, empty, List.length_flatten]
  innermost := by cases fs <;> simp [Frames.above, empty]
  current := by cases fs <;> simp [Frames.above, empty, current]

/-- An operation faults for want of a frame only, and then it has changed nothing. -/
structure Guarded (s : Scope) (fs : Frames) : Prop where
  enter : ∃ s', Operation.enter.perform.run s = .ok () s'
  leave : (∃ fault s', Operation.leave.perform.run s = .error fault s') ↔ fs = []
  push : ∀ name type,
    (∃ fault s', (Operation.push name type).perform.run s = .error fault s') ↔ fs = []
  unchanged : ∀ (op : Operation) fault s', op.perform.run s = .error fault s' → s' = s

/-- An operation that faults leaves the scope as it was, whatever the scope. -/
theorem eq_of_run_eq_error {op : Operation} {fault : Fault} {s' : Scope}
    (h : op.perform.run s = .error fault s') : s' = s := by
  rw [Operation.run_perform] at h
  cases hresult : op.result s with
  | ok next =>
      rw [hresult] at h
      cases h
  | error _ =>
      rw [hresult] at h
      cases h
      rfl

/-- The operations on a scope are guarded. -/
theorem Represents.guarded (h : s.Represents fs) : s.Guarded fs := by
  have hcounts := h.counts
  obtain ⟨vars, counts⟩ := s
  obtain rfl : counts = fs.map List.length := hcounts
  refine ⟨⟨_, rfl⟩, ?_, fun name type => ?_, fun op fault s' => eq_of_run_eq_error⟩
  · cases fs with
    | nil => exact iff_of_true ⟨_, _, rfl⟩ rfl
    | cons f fs =>
        refine iff_of_false ?_ (List.cons_ne_nil f fs)
        rintro ⟨fault, s', heq⟩
        cases heq
  · cases fs with
    | nil => exact iff_of_true ⟨_, _, rfl⟩ rfl
    | cons f fs =>
        refine iff_of_false ?_ (List.cons_ne_nil f fs)
        rintro ⟨fault, s', heq⟩
        cases heq

/-! ## Balanced runs -/

/-- Operations in which every frame that is entered is left, and no other. -/
inductive Balanced : List Operation → Prop
  | nil : Balanced []
  | push (name : String) (type : Ty) {ops : List Operation} :
      Balanced ops → Balanced (.push name type :: ops)
  | frame {inner ops : List Operation} :
      Balanced inner → Balanced ops → Balanced (.enter :: (inner ++ .leave :: ops))

/-- A balanced run adds variables to the innermost frame, and what lies below stays. -/
theorem Balanced.after_above (h : Balanced ops) :
    ∀ (base : Scope) (f : List ScopeVar),
      ∃ added, (Frames.above base [f]).after ops = Frames.above base [added ++ f] := by
  induction h with
  | nil => exact fun base f => ⟨[], rfl⟩
  | @push name type ops _ ih =>
      intro base f
      obtain ⟨added, hadded⟩ := ih base (⟨name, type⟩ :: f)
      refine ⟨added ++ [⟨name, type⟩], ?_⟩
      calc (Frames.above base [f]).after (.push name type :: ops)
          = (Frames.above base [⟨name, type⟩ :: f]).after ops :=
            congrArg (after · ops) (next_above (Or.inl (List.cons_ne_nil f [])) _)
        _ = Frames.above base [added ++ ⟨name, type⟩ :: f] := hadded
        _ = Frames.above base [added ++ [⟨name, type⟩] ++ f] := by rw [List.append_cons]
  | @frame inner ops _ _ ihinner ih =>
      intro base f
      -- For the inner run the frame at hand is a part of what lies below.
      obtain ⟨inside, hinside⟩ := ihinner (Frames.above base [f]) []
      obtain ⟨added, hadded⟩ := ih base f
      refine ⟨added, ?_⟩
      calc (Frames.above base [f]).after (.enter :: (inner ++ .leave :: ops))
          = ((Frames.above (Frames.above base [f]) [[]]).after inner).after (.leave :: ops) :=
            after_append _ inner _
        _ = ((Frames.above (Frames.above base [f]) [inside ++ []]).next .leave).after ops := by
            rw [hinside]
            rfl
        _ = (Frames.above base [f]).after ops :=
            congrArg (after · ops) (next_above (Or.inl (List.cons_ne_nil _ [])) .leave)
        _ = Frames.above base [added ++ f] := hadded

/-- A frame is entered, a run is made in it and it is left: what is stored then are the variables of
the frame on those from before, and leaving takes exactly these away. -/
structure Restored (s : Scope) (inner : List Operation) : Prop where
  vars : (s.enter.after inner).vars = (s.enter.after inner).current.reverse ++ s.vars
  leave : (s.enter.after inner).leave = .ok s
  run : s.after (.enter :: (inner ++ [.leave])) = s

/-- A balanced run in a frame of its own restores the scope, whatever the scope. -/
theorem Balanced.restored (h : Balanced ops) (s : Scope) : s.Restored ops := by
  obtain ⟨added, hadded⟩ := h.after_above s []
  have hinner : s.enter.after ops = Frames.above s [added] := by
    rw [List.append_nil] at hadded
    exact hadded
  refine ⟨?_, ?_, ?_⟩
  · rw [hinner]
    simp [Frames.above, current]
  · rw [hinner]
    simp [Frames.above, Scope.leave]
  · calc s.after (.enter :: (ops ++ [Operation.leave]))
        = (s.enter.after ops).next .leave := after_append s.enter ops [.leave]
      _ = (Frames.above s [added]).next .leave := by rw [hinner]
      _ = s := next_above (Or.inl (List.cons_ne_nil added [])) .leave

/-! ## What is visible -/

/-- What is not hidden comes in the order in which it is stored. -/
theorem unhidden_sublist : ∀ (seen : List String) (vs : List ScopeVar),
    (unhidden seen vs).Sublist vs
  | _, [] => List.Sublist.slnil
  | seen, v :: vs => by
      rw [unhidden]
      split
      · exact (unhidden_sublist seen vs).cons v
      · exact (unhidden_sublist (v.name :: seen) vs).cons_cons v

/-- A name that has been seen is hidden. -/
theorem name_notMem_of_mem_unhidden {v : ScopeVar} :
    ∀ {seen : List String} {vs : List ScopeVar}, v ∈ unhidden seen vs → v.name ∉ seen
  | _, [], h => nomatch h
  | seen, w :: vs, h => by
      rw [unhidden] at h
      split at h
      · exact name_notMem_of_mem_unhidden h
      · rename_i hw
        rcases List.mem_cons.1 h with rfl | h
        · exact hw
        · exact fun hv => name_notMem_of_mem_unhidden h (List.mem_cons_of_mem w.name hv)

/-- What is not hidden has each name once. -/
theorem unhidden_names_nodup : ∀ (seen : List String) (vs : List ScopeVar),
    ((unhidden seen vs).map ScopeVar.name).Nodup
  | _, [] => List.nodup_nil
  | seen, v :: vs => by
      rw [unhidden]
      split
      · exact unhidden_names_nodup seen vs
      · refine List.nodup_cons.2 ⟨fun hv => ?_, unhidden_names_nodup (v.name :: seen) vs⟩
        obtain ⟨w, hw, hname⟩ := List.mem_map.1 hv
        exact name_notMem_of_mem_unhidden hw (hname ▸ List.mem_cons_self)

/-- A name that has not been seen is bound, among what is not hidden, as it is bound first. -/
theorem find?_unhidden {x : String} : ∀ {seen : List String} (vs : List ScopeVar), x ∉ seen →
    (unhidden seen vs).find? (·.name == x) = vs.find? (·.name == x)
  | _, [], _ => rfl
  | seen, v :: vs, hx => by
      rw [unhidden]
      split
      · rename_i hv
        have hne : (v.name == x) = false := beq_eq_false_iff_ne.2 fun heq => hx (heq ▸ hv)
        rw [List.find?_cons, hne]
        exact find?_unhidden vs hx
      · cases hname : v.name == x with
        | true => simp [hname]
        | false =>
            have hne : x ≠ v.name := fun heq => beq_eq_false_iff_ne.1 hname heq.symm
            rw [List.find?_cons, List.find?_cons, hname]
            exact find?_unhidden vs (List.not_mem_cons_of_ne_of_not_mem hne hx)

/-- A search considers what is not hidden, up to the first variable that satisfies the condition. -/
theorem searchFrom_eq (p : ScopeVar → Bool) : ∀ (seen : List String) (vs : List ScopeVar),
    searchFrom p seen vs =
      (((unhidden seen vs).take ((unhidden seen vs).findIdx p + 1)).map ScopeVar.name,
        (unhidden seen vs).find? p)
  | _, [] => rfl
  | seen, v :: vs => by
      rw [searchFrom, unhidden]
      split
      · exact searchFrom_eq p seen vs
      · cases hp : p v with
        | true => simp [hp, List.findIdx_cons]
        | false =>
            rw [searchFrom_eq p (v.name :: seen) vs]
            simp [hp, List.findIdx_cons]

/-- What a scope shows. The visible variables are stored ones, in the same order; each name is
there once, bound as it was last. A search considers them one after the other until one satisfies the
condition; by name it finds the binding in the innermost frame that has one. -/
structure Shows (s : Scope) (fs : Frames) : Prop where
  ordered : s.visible.Sublist s.vars
  nodup : (s.visible.map ScopeVar.name).Nodup
  newest : ∀ x, s.visible.find? (·.name == x) = s.vars.find? (·.name == x)
  considered : ∀ p : ScopeVar → Bool,
    (s.search p).1 = (s.visible.take (s.visible.findIdx p + 1)).map ScopeVar.name
  found : ∀ p : ScopeVar → Bool, s.find? p = s.visible.find? p
  named : ∀ x, s.findName? x = fs.findSome? fun f => f.find? (·.name == x)
  typed : ∀ t : Ty, s.findType? t = s.visible.find? (·.type.identical t)

/-- A scope that stands for frames shows their variables. -/
theorem Represents.shows (h : s.Represents fs) : s.Shows fs := by
  have hfound : ∀ p : ScopeVar → Bool, s.find? p = s.visible.find? p := fun p =>
    congrArg Prod.snd (searchFrom_eq p [] s.vars)
  have hnewest : ∀ x, s.visible.find? (·.name == x) = s.vars.find? (·.name == x) := fun x =>
    find?_unhidden s.vars List.not_mem_nil
  refine ⟨unhidden_sublist [] s.vars, unhidden_names_nodup [] s.vars, hnewest,
    fun p => congrArg Prod.fst (searchFrom_eq p [] s.vars), hfound, fun x => ?_,
    fun t => hfound _⟩
  calc s.findName? x = s.visible.find? (·.name == x) := hfound _
    _ = s.vars.find? (·.name == x) := hnewest x
    _ = fs.flatten.find? (·.name == x) := by rw [h.vars]
    _ = fs.findSome? fun f => f.find? (·.name == x) := List.find?_flatten

/-! ## Every run -/

/-- A scope is a stack of frames with shadowing. After any operations on an empty scope, those
that fault skipped, it stands for the frames that the same operations make, its operations fault for
want of a frame only and then change nothing, it shows the variables of the frames, and a balanced
run in a frame of its own gives it back. -/
theorem refines_frames (ops : List Operation) :
    (Scope.empty.after ops).Represents (Frames.after [] ops) ∧
      (Scope.empty.after ops).Guarded (Frames.after [] ops) ∧
      (Scope.empty.after ops).Shows (Frames.after [] ops) ∧
      ∀ inner, Balanced inner → (Scope.empty.after ops).Restored inner := by
  have h : (Scope.empty.after ops).Represents (Frames.after [] ops) := by
    rw [after_empty]
    exact represents_above (Frames.after [] ops)
  exact ⟨h, h.guarded, h.shows, fun inner hinner => hinner.restored _⟩

/-- An integer `x` below a string `x`: only the string can be found, until its frame is left. -/
theorem refines_frames_shadowing :
    (Scope.empty.after [.leave, .enter, .push "x" .int, .enter]).Restored [.push "x" .string] ∧
      (Scope.empty.after [.leave, .enter, .push "x" .int, .enter, .push "x" .string]).findType?
        .int = none := by
  refine ⟨(refines_frames [.leave, .enter, .push "x" .int, .enter]).2.2.2 _ (.push _ _ .nil), ?_⟩
  rw [(refines_frames [.leave, .enter, .push "x" .int, .enter, .push "x" .string]).2.2.1.typed]
  decide +kernel

end TypedPhp.Scope
