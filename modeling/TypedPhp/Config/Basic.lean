import TypedPhp.Double.Text

set_option autoImplicit false

/-!
# Configuration

The sizes and chances that steer generation, and the check that a configuration makes sense.
`Config.settings` names every one of them; a settings file and a report of a configuration use
these names.
-/

namespace TypedPhp

/-- A closed range of counts. -/
structure CountRange where
  min : Nat
  max : Nat
deriving DecidableEq, Repr, Inhabited

/-- What steers generation. -/
structure Config where
  /-- The number of library files. -/
  libFiles : Nat
  /-- The number of functions of a library file. -/
  libFuncs : CountRange
  /-- The number of classes. -/
  classes : Nat
  /-- The number of fields of a class. -/
  fields : CountRange
  /-- The number of methods of a class. -/
  methods : CountRange
  /-- The number of parameters of a function. -/
  params : CountRange
  /-- The number of functions of the main file. -/
  mainFuncs : CountRange
  /-- The number of declarations at the start of a body. -/
  varDecls : CountRange
  /-- The number of statements after them. -/
  stmts : CountRange
  maxBlockStmts : Nat
  maxStmtDepth : Nat
  maxExprDepth : Nat
  maxCases : Nat
  maxLoopIterations : Nat
  /-- The chance that a value comes from the pool of edge cases. -/
  interesting : Double
  /-- The chance of extra parentheses. -/
  paren : Double
  /-- The chance that a declaration casts its value. -/
  declCast : Double
  /-- The chance that one more parameter has a default. -/
  paramDefault : Double
  /-- The chance that a condition has an alternative. -/
  otherwise : Double
  /-- The chance that a switch has a default. -/
  defaultCase : Double
  /-- The chance that a case ends in a break. -/
  caseBreak : Double
  /-- The chance that a field is private. -/
  privateField : Double
deriving DecidableEq, Repr

namespace Config

/-- The configuration that holds where nothing else is asked for. -/
def standard : Config where
  libFiles := 2
  libFuncs := ⟨2, 4⟩
  classes := 3
  fields := ⟨1, 4⟩
  methods := ⟨0, 3⟩
  params := ⟨0, 4⟩
  mainFuncs := ⟨2, 4⟩
  varDecls := ⟨1, 4⟩
  stmts := ⟨3, 8⟩
  maxBlockStmts := 3
  maxStmtDepth := 3
  maxExprDepth := 5
  maxCases := 5
  maxLoopIterations := 10
  interesting := ⟨0x3fe0000000000000⟩
  paren := ⟨0x3fd3333333333333⟩
  declCast := ⟨0x3fd3333333333333⟩
  paramDefault := ⟨0x3fd3333333333333⟩
  otherwise := ⟨0x3fe0000000000000⟩
  defaultCase := ⟨0x3fe0000000000000⟩
  caseBreak := ⟨0x3fe999999999999a⟩
  privateField := ⟨0x3fd3333333333333⟩

instance : Inhabited Config := ⟨standard⟩

/-! ## Settings by name -/

/-- How one setting is read and changed. -/
inductive Setting where
  | count (get : Config → Nat) (set : Config → Nat → Config)
  | chance (get : Config → Double) (set : Config → Double → Config)

/-- The settings, by the names they have outside. -/
def settings : List (String × Setting) :=
  [ ("n_lib_files", .count (·.libFiles) fun c n => { c with libFiles := n }),
    ("min_lib_funcs", .count (·.libFuncs.min) fun c n => { c with libFuncs.min := n }),
    ("max_lib_funcs", .count (·.libFuncs.max) fun c n => { c with libFuncs.max := n }),
    ("n_classes", .count (·.classes) fun c n => { c with classes := n }),
    ("min_fields", .count (·.fields.min) fun c n => { c with fields.min := n }),
    ("max_fields", .count (·.fields.max) fun c n => { c with fields.max := n }),
    ("min_methods", .count (·.methods.min) fun c n => { c with methods.min := n }),
    ("max_methods", .count (·.methods.max) fun c n => { c with methods.max := n }),
    ("min_params", .count (·.params.min) fun c n => { c with params.min := n }),
    ("max_params", .count (·.params.max) fun c n => { c with params.max := n }),
    ("min_main_funcs", .count (·.mainFuncs.min) fun c n => { c with mainFuncs.min := n }),
    ("max_main_funcs", .count (·.mainFuncs.max) fun c n => { c with mainFuncs.max := n }),
    ("min_var_decls", .count (·.varDecls.min) fun c n => { c with varDecls.min := n }),
    ("max_var_decls", .count (·.varDecls.max) fun c n => { c with varDecls.max := n }),
    ("min_stmts", .count (·.stmts.min) fun c n => { c with stmts.min := n }),
    ("max_stmts", .count (·.stmts.max) fun c n => { c with stmts.max := n }),
    ("max_block_stmts", .count (·.maxBlockStmts) fun c n => { c with maxBlockStmts := n }),
    ("max_stmt_depth", .count (·.maxStmtDepth) fun c n => { c with maxStmtDepth := n }),
    ("max_expr_depth", .count (·.maxExprDepth) fun c n => { c with maxExprDepth := n }),
    ("max_cases", .count (·.maxCases) fun c n => { c with maxCases := n }),
    ("max_loop_iterations",
      .count (·.maxLoopIterations) fun c n => { c with maxLoopIterations := n }),
    ("p_interesting_value", .chance (·.interesting) fun c p => { c with interesting := p }),
    ("p_paren", .chance (·.paren) fun c p => { c with paren := p }),
    ("p_decl_cast", .chance (·.declCast) fun c p => { c with declCast := p }),
    ("p_param_default", .chance (·.paramDefault) fun c p => { c with paramDefault := p }),
    ("p_else", .chance (·.otherwise) fun c p => { c with otherwise := p }),
    ("p_default_case", .chance (·.defaultCase) fun c p => { c with defaultCase := p }),
    ("p_case_break", .chance (·.caseBreak) fun c p => { c with caseBreak := p }),
    ("p_private_field", .chance (·.privateField) fun c p => { c with privateField := p }) ]

/-- The setting of a given name. -/
def setting? (name : String) : Option Setting := settings.lookup name

/-! ## Checks -/

/-- Why a configuration is refused. -/
inductive Refusal where
  /-- The settings file is malformed, or names an unknown setting or a value of a wrong kind. -/
  | badFile
  /-- A range whose least count is above its greatest. -/
  | emptyRange (name : String) (range : CountRange)
  /-- A chance outside the interval from zero to one. -/
  | notAProbability (name : String) (p : Double)
  /-- A bound of loop iterations outside 1 to 10. -/
  | badLoopBound (bound : Nat)
deriving DecidableEq, Repr

/-- The message of a refusal. -/
def Refusal.message : Refusal → String
  | badFile => "invalid config syntax"
  | emptyRange name r =>
    "invalid range for " ++ name ++ ": min " ++ toString r.min ++ " > max " ++ toString r.max
  | notAProbability name p =>
    name ++ " = " ++ String.ofList (p.format .plain) ++ " is not a probability"
  | badLoopBound n => "max_loop_iterations = " ++ toString n ++ " is outside 1..=10"

/-- The ranges, in the order in which they are checked. -/
def ranges (c : Config) : List (String × CountRange) :=
  [ ("lib_funcs", c.libFuncs), ("fields", c.fields), ("methods", c.methods),
    ("params", c.params), ("main_funcs", c.mainFuncs), ("var_decls", c.varDecls),
    ("stmts", c.stmts) ]

/-- The chances, in the order in which they are checked. -/
def chances (c : Config) : List (String × Double) :=
  [ ("p_interesting_value", c.interesting), ("p_paren", c.paren),
    ("p_decl_cast", c.declCast), ("p_param_default", c.paramDefault),
    ("p_else", c.otherwise), ("p_default_case", c.defaultCase),
    ("p_case_break", c.caseBreak), ("p_private_field", c.privateField) ]

/-- Refuses the first empty range, else the first chance that is no probability, else a bad
bound of loop iterations. -/
def validate (c : Config) : Except Refusal Unit :=
  match c.ranges.find? fun r => r.2.max < r.2.min with
  | some (name, r) => .error (.emptyRange name r)
  | none =>
    match c.chances.find? fun p => !p.2.isProbability with
    | some (name, p) => .error (.notAProbability name p)
    | none =>
      if 1 ≤ c.maxLoopIterations ∧ c.maxLoopIterations ≤ 10 then .ok ()
      else .error (.badLoopBound c.maxLoopIterations)

end Config

end TypedPhp
