import TypedPhp.Ty.Order
import TypedPhp.Fault

set_option autoImplicit false

/-!
# Block-scoped variables

A scope holds the variables of all open frames in one list, newest first, and the number of
variables of each frame, innermost first. Leaving a frame therefore drops as many variables as
the frame counts. A later binding of a name hides every earlier one, whatever its type.
-/

namespace TypedPhp

/-- A variable in scope. -/
structure ScopeVar where
  name : String
  type : Ty
deriving Repr, Inhabited

/-- The open frames and their variables. -/
structure Scope where
  /-- Every variable, newest first. -/
  vars : List ScopeVar
  /-- How many variables each frame holds, innermost first. -/
  counts : List Nat
deriving Repr, Inhabited

namespace Scope

/-- No frame is open. -/
def empty : Scope := ⟨[], []⟩

/-- Opens a frame. -/
def enter (s : Scope) : Scope := ⟨s.vars, 0 :: s.counts⟩

/-- Closes the innermost frame. -/
def leave (s : Scope) : Except Fault Scope :=
  match s.counts with
  | [] => .error .leaveWithoutFrame
  | n :: counts => .ok ⟨s.vars.drop n, counts⟩

/-- How many frames are open. -/
def depth (s : Scope) : Nat := s.counts.length

/-- Adds a variable to the innermost frame. -/
def push (s : Scope) (name : String) (type : Ty) : Except Fault Scope :=
  match s.counts with
  | [] => .error .pushWithoutFrame
  | n :: counts => .ok ⟨⟨name, type⟩ :: s.vars, (n + 1) :: counts⟩

/-- The variables of the innermost frame, oldest first. -/
def current (s : Scope) : List ScopeVar := (s.vars.take (s.counts.headD 0)).reverse

/-- The variables whose name is not in `seen` and not hidden by an earlier one of the list. -/
def unhidden (seen : List String) : List ScopeVar → List ScopeVar
  | [] => []
  | v :: vs => if v.name ∈ seen then unhidden seen vs else v :: unhidden (v.name :: seen) vs

/-- The visible variables, newest first. -/
def visible (s : Scope) : List ScopeVar := unhidden [] s.vars

/-- The names that are considered until a variable satisfies `p`, and that variable. A name
in `seen` is passed over. -/
def searchFrom (p : ScopeVar → Bool) (seen : List String) :
    List ScopeVar → List String × Option ScopeVar
  | [] => ([], none)
  | v :: vs =>
    if v.name ∈ seen then searchFrom p seen vs
    else if p v then ([v.name], some v)
    else
      let (names, hit) := searchFrom p (v.name :: seen) vs
      (v.name :: names, hit)

/-- The names considered, newest first, in the search for a visible variable that satisfies
`p`, and the variable found. -/
def search (s : Scope) (p : ScopeVar → Bool) : List String × Option ScopeVar :=
  searchFrom p [] s.vars

/-- The newest visible variable that satisfies `p`. -/
def find? (s : Scope) (p : ScopeVar → Bool) : Option ScopeVar := (s.search p).2

/-- The newest visible variable of exactly this type. -/
def findType? (s : Scope) (t : Ty) : Option ScopeVar := s.find? (·.type.identical t)

/-- The innermost binding of a name. -/
def findName? (s : Scope) (name : String) : Option ScopeVar := s.find? (·.name == name)

end Scope

end TypedPhp
