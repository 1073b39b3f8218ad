import TypedPhp.Compare.Verdict
import TypedPhp.Proofs.Compare.Script
import TypedPhp.Proofs.Text.Lines

set_option autoImplicit false

/-!
# What a verdict says

`Verdict.Decided` tells for each verdict when it is the right one, without a word on how it is
found: rows are those of `Text.RowsOf`, an exception is the first row of a run that holds a
pattern once it is put in small letters, and outputs are compared as texts. The comparison by
lines is any that obeys `Differ.Lawful`, and small letters are any that obey `Text.Lowers`.
`Verdict.judgeBy_settled` is the result: the verdict is always the one that is decided, and
exit codes do not bear on it, nor do error outputs without an exception.
-/

namespace TypedPhp

/-- What a comparison by lines has to obey: the lines of a text make it up, a script leads from
one list to the other, a list and itself need no change, and two texts count as the same if
nothing is deleted or inserted. -/
structure Differ.Lawful (d : Differ) : Prop where
  join_lines : ∀ text, String.join (d.lines text) = text
  script_old : ∀ old new, (d.script old new).old = old
  script_new : ∀ old new, (d.script old new).new = new
  script_self : ∀ lines, (d.script lines lines).isUnchanged = true
  isFull_eq : ∀ s, d.isFull s = s.isUnchanged

namespace Differ

theorem standard_lawful : standard.Lawful where
  join_lines := Text.join_lines
  script_old := Script.between_old
  script_new := Script.between_new
  script_self := Script.between_self
  isFull_eq _ := rfl

/-- Texts count as the same exactly if they are. -/
theorem Lawful.isFull_iff {d : Differ} (hd : d.Lawful) (old new : String) :
    d.isFull (d.script (d.lines old) (d.lines new)) = true ↔ old = new := by
  rw [hd.isFull_eq]
  constructor
  · intro hunchanged
    have hlines := Script.old_eq_new_of_isUnchanged hunchanged
    rw [hd.script_old, hd.script_new] at hlines
    rw [← hd.join_lines old, ← hd.join_lines new, hlines]
  · rintro rfl
    exact hd.script_self _

end Differ

namespace RunResult

variable (lower : List Char → List Char)

/-- A row tells of an exception. -/
def Tells (row : List Char) : Prop := ∃ p ∈ Verdict.exceptionPatterns, p.toList <:+: lower row

/-- The rows of a run, the regular output first. -/
inductive Rows (r : RunResult) : List (List Char) → Prop where
  | mk {out err : List (List Char)} (hout : Text.RowsOf r.stdout.toList out)
      (herr : Text.RowsOf r.stderr.toList err) : Rows r (out ++ err)

/-- The first row of a run that tells of an exception. -/
def FirstException (r : RunResult) (line : String) : Prop :=
  ∃ before after, r.Rows (before ++ line.toList :: after) ∧ Tells lower line.toList ∧
    ∀ row ∈ before, ¬ Tells lower row

/-- No row of a run tells of an exception. -/
def Clean (r : RunResult) : Prop := ∃ rows, r.Rows rows ∧ ∀ row ∈ rows, ¬ Tells lower row

theorem rows_iff (r : RunResult) (rows : List (List Char)) :
    r.Rows rows ↔ rows = Text.rowsFrom [] r.stdout.toList ++ Text.rowsFrom [] r.stderr.toList := by
  constructor
  · rintro ⟨hout, herr⟩
    rw [(Text.rowsOf_iff _ _).mp hout, (Text.rowsOf_iff _ _).mp herr]
  · rintro rfl
    exact ⟨(Text.rowsOf_iff _ _).mpr rfl, (Text.rowsOf_iff _ _).mpr rfl⟩

end RunResult

namespace NamedRun

/-- The same run with another exit code. -/
def setExit (r : NamedRun) (code : Option Nat) : NamedRun :=
  { r with result := { r.result with exitCode := code } }

/-- The same run with another error output. -/
def setErrors (r : NamedRun) (errors : String) : NamedRun :=
  { r with result := { r.result with stderr := errors } }

end NamedRun

namespace Verdict

open RunResult

theorem exceptionPatterns_plain (p : String) (hp : p ∈ exceptionPatterns) :
    Text.Plain p.toList := by
  have hascii : ∀ p ∈ exceptionPatterns, p.toList.all (·.toNat < 128) = true := by decide
  have hkelvin : ∀ p ∈ exceptionPatterns, 'k' ∉ p.toList := by decide
  have hdotted : ∀ p ∈ exceptionPatterns, p.toList.getLast? ≠ some 'i' := by decide
  refine ⟨fun c hc => ?_, hkelvin p hp, hdotted p hp⟩
  exact of_decide_eq_true (List.all_eq_true.1 (hascii p hp) c hc)

/-- The rows of both outputs as lists of characters. -/
theorem exceptionLine?_eq (r : RunResult) :
    exceptionLine? r =
      ((Text.rowsFrom [] r.stdout.toList ++ Text.rowsFrom [] r.stderr.toList).find?
        (isException ∘ String.ofList)).map String.ofList := by
  simp only [exceptionLine?, Text.rows, ← List.map_append, List.find?_map]

section Exceptions

variable {lower : List Char → List Char} (hlower : ∀ cs, Text.Lowers cs (lower cs))
include hlower

theorem isException_iff (row : List Char) :
    isException (String.ofList row) = true ↔ Tells lower row := by
  simp only [isException, List.any_eq_true, Text.occurs_iff, String.toList_ofList, Tells]
  refine exists_congr fun p => and_congr_right fun hp => ?_
  exact ((exceptionPatterns_plain p hp).infix_lowered (hlower row)).symm

theorem exceptionLine?_eq_some (r : RunResult) (line : String) :
    exceptionLine? r = some line ↔ FirstException lower r line := by
  rw [exceptionLine?_eq, Option.map_eq_some_iff]
  constructor
  · rintro ⟨row, hfind, rfl⟩
    obtain ⟨htells, before, after, hrows, hbefore⟩ := List.find?_eq_some_iff_append.mp hfind
    refine ⟨before, after, ?_, ?_, fun other hother htold => ?_⟩
    · rw [String.toList_ofList, rows_iff, hrows]
    · rw [String.toList_ofList]
      exact (isException_iff hlower row).mp htells
    · have hquiet := hbefore other hother
      simp [(isException_iff hlower other).mpr htold] at hquiet
  · rintro ⟨before, after, hrows, htells, hbefore⟩
    refine ⟨line.toList, ?_, String.ofList_toList⟩
    rw [← (rows_iff r _).mp hrows]
    refine List.find?_eq_some_iff_append.mpr
      ⟨(isException_iff hlower _).mpr htells, before, after, rfl, fun other hother => ?_⟩
    have hquiet := mt (isException_iff hlower other).mp (hbefore other hother)
    simpa using hquiet

theorem exceptionLine?_eq_none (r : RunResult) :
    exceptionLine? r = none ↔ Clean lower r := by
  rw [exceptionLine?_eq, Option.map_eq_none_iff, List.find?_eq_none]
  constructor
  · intro hquiet
    exact ⟨_, (rows_iff r _).mpr rfl,
      fun row hrow htells => hquiet row hrow ((isException_iff hlower row).mpr htells)⟩
  · rintro ⟨rows, hrows, hquiet⟩ row hrow htells
    rw [← (rows_iff r _).mp hrows] at hrow
    exact hquiet row hrow ((isException_iff hlower row).mp htells)

end Exceptions

/-- Which verdict is right. The conditions follow each other in order: compilation, time,
exceptions of the reference run, those of the compiled run, and the outputs. -/
inductive Decided (d : Differ) (lower : List Char → List Char) (reference compiled : NamedRun) :
    Verdict → Prop where
  | compileError (hcompiled : compiled.result.compiled = false) :
      Decided d lower reference compiled .compileError
  | timeout (hcompiled : compiled.result.compiled = true)
      (htime : reference.result.terminated = false ∨ compiled.result.terminated = false) :
      Decided d lower reference compiled .timeout
  | referenceException {line : String} (hcompiled : compiled.result.compiled = true)
      (hreference : reference.result.terminated = true)
      (htime : compiled.result.terminated = true)
      (hline : FirstException lower reference.result line) :
      Decided d lower reference compiled (.exception reference.engine line)
  | compiledException {line : String} (hcompiled : compiled.result.compiled = true)
      (hreference : reference.result.terminated = true)
      (htime : compiled.result.terminated = true) (hclean : Clean lower reference.result)
      (hline : FirstException lower compiled.result line) :
      Decided d lower reference compiled (.exception compiled.engine line)
  | same (hcompiled : compiled.result.compiled = true)
      (hreference : reference.result.terminated = true)
      (htime : compiled.result.terminated = true) (hclean : Clean lower reference.result)
      (hquiet : Clean lower compiled.result)
      (hsame : reference.result.stdout = compiled.result.stdout) :
      Decided d lower reference compiled .same
  | diverged (hcompiled : compiled.result.compiled = true)
      (hreference : reference.result.terminated = true)
      (htime : compiled.result.terminated = true) (hclean : Clean lower reference.result)
      (hquiet : Clean lower compiled.result)
      (hdiffer : reference.result.stdout ≠ compiled.result.stdout) :
      Decided d lower reference compiled (.diverged (Unified.text reference.engine compiled.engine
        (d.script (d.lines reference.result.stdout) (d.lines compiled.result.stdout))))

section Judge

variable {d : Differ} {lower : List Char → List Char} (hd : d.Lawful)
  (hlower : ∀ cs, Text.Lowers cs (lower cs)) (reference compiled : NamedRun)
include hd hlower

/-- The verdict of `judgeBy` is a right one. -/
theorem decided_judgeBy : Decided d lower reference compiled (judgeBy d reference compiled) := by
  -- The cases are split in the order of the checks: each verdict needs that none before it applied.
  unfold judgeBy
  cases hcompiled : compiled.result.compiled with
  | false => exact .compileError hcompiled
  | true =>
    cases hreference : reference.result.terminated with
    | false => exact .timeout hcompiled (.inl hreference)
    | true =>
      cases htime : compiled.result.terminated with
      | false => exact .timeout hcompiled (.inr htime)
      | true =>
        cases hfirst : exceptionLine? reference.result with
        | some line =>
          exact .referenceException hcompiled hreference htime
            ((exceptionLine?_eq_some hlower _ _).mp hfirst)
        | none =>
          have hclean := (exceptionLine?_eq_none hlower _).mp hfirst
          cases hsecond : exceptionLine? compiled.result with
          | some line =>
            exact .compiledException hcompiled hreference htime hclean
              ((exceptionLine?_eq_some hlower _ _).mp hsecond)
          | none =>
            have hquiet := (exceptionLine?_eq_none hlower _).mp hsecond
            by_cases hsame : reference.result.stdout = compiled.result.stdout
            · have hfull := (hd.isFull_iff _ _).mpr hsame
              simpa [hfull] using
                Decided.same (d := d) hcompiled hreference htime hclean hquiet hsame
            · have hnotFull := mt (hd.isFull_iff _ _).mp hsame
              simpa [hnotFull] using
                Decided.diverged (d := d) hcompiled hreference htime hclean hquiet hsame

/-- No other verdict is right. -/
theorem judgeBy_of_decided {v : Verdict} (hv : Decided d lower reference compiled v) :
    judgeBy d reference compiled = v := by
  cases hv with
  | compileError hcompiled => simp [judgeBy, hcompiled]
  | timeout hcompiled htime =>
    obtain hreference | hterminated := htime
    · simp [judgeBy, hcompiled, hreference]
    · simp [judgeBy, hcompiled, hterminated]
  | referenceException hcompiled hreference htime hline =>
    have hfirst := (exceptionLine?_eq_some hlower _ _).mpr hline
    simp [judgeBy, hcompiled, hreference, htime, hfirst]
  | compiledException hcompiled hreference htime hclean hline =>
    have hfirst := (exceptionLine?_eq_none hlower _).mpr hclean
    have hsecond := (exceptionLine?_eq_some hlower _ _).mpr hline
    simp [judgeBy, hcompiled, hreference, htime, hfirst, hsecond]
  | same hcompiled hreference htime hclean hquiet hsame =>
    have hfirst := (exceptionLine?_eq_none hlower _).mpr hclean
    have hsecond := (exceptionLine?_eq_none hlower _).mpr hquiet
    have hfull := (hd.isFull_iff _ _).mpr hsame
    simp [judgeBy, hcompiled, hreference, htime, hfirst, hsecond, hfull]
  | diverged hcompiled hreference htime hclean hquiet hdiffer =>
    have hfirst := (exceptionLine?_eq_none hlower _).mpr hclean
    have hsecond := (exceptionLine?_eq_none hlower _).mpr hquiet
    have hnotFull := mt (hd.isFull_iff _ _).mp hdiffer
    simp [judgeBy, hcompiled, hreference, htime, hfirst, hsecond, hnotFull]

end Judge

/-- The verdict on two runs is decided by what they left behind, in a fixed order. -/
structure Settled (d : Differ) (lower : List Char → List Char) (reference compiled : NamedRun) :
    Prop where
  /-- The verdict is the one that is right. -/
  judged : ∀ v, judgeBy d reference compiled = v ↔ Decided d lower reference compiled v
  /-- Exit codes do not bear on it. -/
  exitCodes : ∀ m n,
    judgeBy d (reference.setExit m) (compiled.setExit n) = judgeBy d reference compiled
  /-- Nor do error outputs as long as neither run tells of an exception. -/
  errors : ∀ e e', Clean lower reference.result → Clean lower compiled.result →
    Clean lower (reference.setErrors e).result → Clean lower (compiled.setErrors e').result →
    judgeBy d (reference.setErrors e) (compiled.setErrors e') = judgeBy d reference compiled

/-- A verdict misses no difference, for any lawful comparison by lines and any way to put a
text in small letters. -/
theorem judgeBy_settled {d : Differ} {lower : List Char → List Char} (hd : d.Lawful)
    (hlower : ∀ cs, Text.Lowers cs (lower cs)) (reference compiled : NamedRun) :
    Settled d lower reference compiled where
  judged v := by
    constructor
    · rintro rfl
      exact decided_judgeBy hd hlower reference compiled
    · exact judgeBy_of_decided hd hlower reference compiled
  exitCodes _ _ := rfl
  errors e e' hreference hcompiled hreference' hcompiled' := by
    have hnone (r : RunResult) (hr : Clean lower r) : exceptionLine? r = none :=
      (exceptionLine?_eq_none hlower r).mpr hr
    simp only [judgeBy, hnone _ hreference, hnone _ hcompiled, hnone _ hreference',
      hnone _ hcompiled']
    rfl

/-- Outputs that differ by a carriage return diverge, although a reader of rows sees none. -/
theorem judgeBy_settled_small :
    (Differ.standard.Lawful ∧ ∀ cs, Text.Lowers cs (cs.flatMap Text.lowerChar)) ∧
      Decided .standard (·.flatMap Text.lowerChar)
        ⟨"php", ⟨"a\r\n", "", true, true, some 0⟩⟩ ⟨"kphp", ⟨"a\n", "note", true, true, some 255⟩⟩
        (.diverged "--- php\n+++ kphp\n@@ -1 +1 @@\n-a\r\n+a\n") :=
  ⟨⟨Differ.standard_lawful, Text.lowers_flatMap⟩,
    ((judgeBy_settled Differ.standard_lawful Text.lowers_flatMap _ _).judged _).mp (by decide +kernel)⟩

end Verdict

end TypedPhp
