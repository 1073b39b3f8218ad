import TypedPhp.Generate.Signatures
import TypedPhp.Proofs.Expr.Formed

set_option autoImplicit false

/-!
# Signatures that are drawn

A sound signature has parameters of proper types with fitting defaults, and nothing or a flat value
as its result. The built-in functions are sound, and so is every signature that is drawn. A drawn
signature also numbers its parameters, and their types name classes that are known where it is
drawn. A drawn class numbers its fields and methods, and every field of it either has a fitting
initial value or holds an object of an earlier class.
-/

namespace TypedPhp

/-- A parameter of a proper type, which can be cast to where a cast is asked for, and whose default
is a constant of the type. -/
structure Param.Sound (p : Param) : Prop where
  proper : p.type.Proper
  castable : p.Castable
  default : ∀ d, p.default = some d → DrawnConstant p.type d

/-- A signature with sound parameters and with nothing or a flat value as its result. -/
structure FuncType.Sound (f : FuncType) : Prop where
  params : ∀ p ∈ f.params, p.Sound
  result : f.result = .void ∨ f.result.Flat

/-- A sound signature whose parameters are numbered, take arguments without a cast, and are of types
that stay within the known classes. -/
structure FuncType.Drawn (known : List String) (f : FuncType) : Prop extends f.Sound where
  uncast : ∀ p ∈ f.params, p.mustCast = false
  within : ∀ p ∈ f.params, p.type.Within known
  names : ∃ n, f.params.map (·.name) = (List.range n).map Draw.paramName

/-- A field that has a fitting initial value and names no class, or that holds an object of one of
the earlier classes. -/
inductive Field.Drawn (earlier : List ClassRef) : Field → Prop where
  | value {name : String} {t : Ty} {x : Node} {visibility : Visibility} : DrawnConstant t x →
      t.Within [] → Drawn earlier ⟨name, t, some x, visibility⟩
  | object {name : String} {c : ClassRef} {visibility : Visibility} : c ∈ earlier →
      Drawn earlier ⟨name, .object c, none, visibility⟩

/-- The initial value of a drawn field is a constant of its type. -/
theorem Field.Drawn.init_constant {earlier : List ClassRef} {f : Field} (h : f.Drawn earlier)
    {x : Node} (hx : f.init = some x) : ConstantOf f.type x := by
  cases h with
  | value hconst _ =>
      obtain rfl := Option.some.inj hx
      exact hconst.constant
  | object _ => cases hx

/-- The initial value of a drawn field can be written. -/
theorem Field.Drawn.init_writable {earlier : List ClassRef} {f : Field} (h : f.Drawn earlier)
    {x : Node} (hx : f.init = some x) : x.Every Node.Writable := by
  cases h with
  | value hconst hw =>
      obtain rfl := Option.some.inj hx
      exact hconst.writable hw.writable
  | object _ => cases hx

/-- A drawn field without an initial value holds an object of an earlier class. -/
theorem Field.Drawn.mem_earlier {earlier : List ClassRef} {f : Field} (h : f.Drawn earlier)
    {c : ClassRef} (htype : f.type = .object c) (hinit : f.init = none) : c ∈ earlier := by
  cases h with
  | value _ _ => cases hinit
  | object hc =>
      obtain rfl := Ty.object.inj htype
      exact hc

/-- The result of a sound function stays within every list of class names. -/
theorem FuncType.Sound.result_within {names : List String} {f : FuncType} (h : f.Sound) :
    f.result.Within names := by
  rcases h.result with hvoid | hflat
  · rw [hvoid]
    exact .of_nil rfl (.scalar _)
  · exact hflat.within

/-- A signature of drawn parameters and a drawn result is drawn, whatever its name and owner. -/
theorem FuncType.Drawn.of_parts {known : List String} {ps : List Param} {result : Ty} (name : String)
    (owner : Option ClassRef)
    (hps : (∀ p ∈ ps, p.Sound ∧ p.mustCast = false ∧ p.type.Within known) ∧
      ∃ n, ps.map (·.name) = (List.range n).map Draw.paramName)
    (hresult : result = .void ∨ result.Flat) :
    FuncType.Drawn known ⟨name, ps, result, owner⟩ where
  params := fun p hp => (hps.1 p hp).1
  result := hresult
  uncast := fun p hp => (hps.1 p hp).2.1
  within := fun p hp => (hps.1 p hp).2.2
  names := hps.2

/-- The name of the field at place `k`. -/
def fieldName (k : Nat) : String := "f" ++ toString k

/-- The name of the method at place `k`. -/
def methodName (k : Nat) : String := "m" ++ toString k

/-- A class that is drawn after the given ones: its fields and methods are drawn and numbered, and
its methods belong to it. -/
structure ClassType.Drawn (known : List String) (earlier : List ClassRef) (c : ClassRef)
    (t : ClassType) : Prop where
  name : t.name = c.name
  fields : ∀ f ∈ t.fields, f.Drawn earlier
  fieldNames : ∃ n, t.fields.map (·.name) = (List.range n).map fieldName
  methods : ∀ f ∈ t.methods, f.Drawn known ∧ f.owner = some c
  names : ∃ n, t.methods.map (·.name) = (List.range n).map methodName

/-! ## Built-in functions -/

namespace Param

variable {name : String} {t : Ty}

theorem Sound.required (ht : t.Proper) : Sound (.required name t) := ⟨ht, nofun, nofun⟩

theorem Sound.strict (ht : t.Literate) : Sound (.strict name t) :=
  ⟨ht.proper, fun _ => ht, nofun⟩

/-- A parameter with a constant default is sound. -/
theorem Sound.optional (ht : t.Proper) {d : Node} (hd : DrawnConstant t d) :
    Sound (.optional name t d) := by
  refine ⟨ht, nofun, ?_⟩
  intro d' hd'
  cases hd'
  exact hd

end Param

namespace Catalog

variable {name : String} {result : Ty}

/-- A function with one sound parameter. -/
theorem one_sound {p : Param} (hp : p.Sound) (hr : result.Flat) :
    (FuncType.function name [p] result).Sound := by
  refine ⟨?_, Or.inr hr⟩
  intro q hq
  obtain rfl := List.mem_singleton.1 hq
  exact hp

/-- A function with two sound parameters. -/
theorem two_sound {p q : Param} (hp : p.Sound) (hq : q.Sound) (hr : result.Flat) :
    (FuncType.function name [p, q] result).Sound := by
  refine ⟨?_, Or.inr hr⟩
  intro r hr
  rcases List.mem_cons.1 hr with rfl | hr
  · exact hp
  · obtain rfl := List.mem_singleton.1 hr
    exact hq

theorem flat (k : Primitive) : (Ty.scalar k.scalar).Flat := .scalar ⟨k⟩

theorem ofString_sound (hr : result.Flat) : (ofString name result).Sound :=
  one_sound (.required (flat .string).proper) hr

theorem trimming_sound : (trimming name).Sound :=
  two_sound (.required (flat .string).proper)
    (.optional (flat .string).proper (.lit (.literal (k := .string) rfl) ⟨rfl, nofun⟩))
    (flat .string)

theorem extremum_sound : (extremum name).Sound :=
  two_sound (.required (flat .int).proper) (.required (flat .int).proper) (flat .int)

theorem numeric_sound : (numeric name).Sound := one_sound (.strict ⟨.float⟩) (flat .float)

theorem ofValue_sound {t : Ty} (ht : t.Flat) (hr : result.Flat) : (ofValue name t result).Sound :=
  one_sound (.required ht.proper) hr

/-- The built-in functions are sound. -/
theorem builtins_sound : ∀ f ∈ builtins, f.Sound := by
  have hstring := flat .string
  have hint := flat .int
  have hfloat := flat .float
  have hbool := flat .bool
  have hints : (Ty.array .int).Flat := .array ⟨.int⟩
  have hstrings : (Ty.array .string).Flat := .array ⟨.string⟩
  have hsubstr : (FuncType.function "substr" [.required "string" .string, .strict "offset" .int,
      .optional "length" .int (.intLit 1)] .string).Sound := by
    refine ⟨?_, Or.inr hstring⟩
    simp only [FuncType.function, List.forall_mem_cons]
    exact ⟨.required hstring.proper, .strict ⟨.int⟩,
      .optional hint.proper (.lit (.literal (k := .int) rfl) ⟨rfl, by decide⟩), nofun⟩
  -- One fact for each entry of the catalog, in its order.
  simp only [builtins, List.forall_mem_cons]
  exact ⟨ofString_sound hint, trimming_sound, trimming_sound, trimming_sound,
    ofString_sound hstring, ofString_sound hstring, ofString_sound hstring,
    ofString_sound hstring, ofString_sound hstring, hsubstr, ofString_sound hstring,
    ofString_sound hstring, one_sound (.required hstring.proper) hint,
    one_sound (.strict ⟨.int⟩) hstring, extremum_sound, extremum_sound, numeric_sound,
    numeric_sound, numeric_sound, numeric_sound, ofValue_sound hstring hint,
    ofValue_sound hstring hfloat, ofValue_sound hint hstring, ofValue_sound hint hbool,
    ofValue_sound hstring hbool, ofValue_sound hints hint,
    one_sound (.required hints.proper) hints,
    two_sound (.required hstring.proper) (.required hstrings.proper) hstring, nofun⟩

theorem builtins_owner : ∀ f ∈ builtins, f.owner = none := by decide

/-- The parameters of the built-in functions are of scalar types, and arrays of them. -/
theorem builtins_within (known : List String) :
    ∀ f ∈ builtins, ∀ p ∈ f.params, p.type.Within known := by
  have hplain : ∀ f ∈ builtins, ∀ p ∈ f.params, p.type.isPlain = true := by decide
  intro f hf p hp
  exact .of_isPlain (hplain f hf p hp)

end Catalog

namespace Draw

variable {ρ : Type} [WordSource ρ] {E : Fault → Prop} {env : Env}

/-! ## Draws -/

/-- The result of a function is nothing or flat. -/
theorem resultType_gives : Gives E (resultType : Draw ρ Ty) fun t => t = .void ∨ t.Flat := by
  unfold resultType
  refine (percent_gives (by decide)).bind fun b _ => ?_
  apply Gives.ite
  · intro _
    exact Gives.pure (Or.inl rfl)
  · intro _
    exact constType_gives.mono fun t ht => Or.inr ht

section Settings

variable (hcfg : env.config.Tolerated E) (hE : E .outOfAttempts)

include hcfg

/-- How often in a row something happens is drawn. -/
theorem runLength_gives : ∀ n, Gives E (runLength env.config.paramDefault n : Draw ρ Nat)
    fun _ => True
  | 0 => Gives.pure trivial
  | n + 1 => by
      rw [runLength]
      refine (hcfg.chances.chance_gives "p_param_default" (by simp [Config.chances])).bind
        fun b _ => ?_
      apply Gives.ite
      · intro _
        exact (runLength_gives n).bind fun rest _ => Gives.pure trivial
      · intro _
        exact Gives.pure trivial

/-- A parameter with a default is sound. -/
theorem optionalParam_gives (i : Nat) :
    Gives E (optionalParam env i : Draw ρ Param) fun p =>
      (p.Sound ∧ p.mustCast = false ∧ p.type.Within env.symbols.classNames) ∧
        p.name = paramName i := by
  unfold optionalParam
  refine constType_gives.bind fun t ht => ?_
  refine (constant_gives hcfg.chances ht.isConstInitializable ht.proper).bind fun d hd => ?_
  exact Gives.pure ⟨⟨.optional ht.proper hd, rfl, ht.within⟩, rfl⟩

include hE

/-- A parameter without a default is sound. -/
theorem requiredParam_gives (i : Nat) :
    Gives E (requiredParam env i : Draw ρ Param) fun p =>
      (p.Sound ∧ p.mustCast = false ∧ p.type.Within env.symbols.classNames) ∧
        p.name = paramName i := by
  unfold requiredParam
  refine (type_gives hcfg.chances hE).bind fun t ht => ?_
  exact Gives.pure ⟨⟨.required ht.1.proper, rfl, ht.2⟩, rfl⟩

/-- The parameters of a list are sound and numbered, and none asks for a cast. -/
theorem params_gives :
    Gives E (params env : Draw ρ (List Param)) fun ps =>
      (∀ p ∈ ps, p.Sound ∧ p.mustCast = false ∧ p.type.Within env.symbols.classNames) ∧
        ∃ n, ps.map (·.name) = (List.range n).map paramName := by
  unfold params
  refine (hcfg.range_gives "params" (by simp [Config.ranges])).bind fun n _ => ?_
  refine (runLength_gives hcfg n).bind fun defaults _ => ?_
  refine (Gives.each_named fun i _ => requiredParam_gives hcfg hE i).bind fun front hfront => ?_
  refine (Gives.each_named fun i _ => optionalParam_gives hcfg i).bind fun back hback => ?_
  -- Required parameters come first, and the numbering runs through both parts.
  have hnames : (front ++ back).map (·.name) = (List.range n).map paramName := by
    rw [List.map_append, hfront.2, hback.2, ← List.map_append, List.take_append_drop]
  refine Gives.pure ⟨?_, n, hnames⟩
  intro p hp
  rcases List.mem_append.1 hp with hp | hp
  · exact hfront.1 p hp
  · exact hback.1 p hp

/-- A function is drawn. -/
theorem function_gives (name : String) :
    Gives E (function env name : Draw ρ FuncType) fun f =>
      (f.Drawn env.symbols.classNames ∧ f.owner = none) ∧ f.name = name := by
  unfold function
  refine (params_gives hcfg hE).bind fun ps hps => ?_
  refine resultType_gives.bind fun result hresult => ?_
  exact Gives.pure ⟨⟨.of_parts name none hps hresult, rfl⟩, rfl⟩

/-- A method is drawn. -/
theorem method_gives (owner : ClassRef) (name : String) :
    Gives E (method env owner name : Draw ρ FuncType) fun f =>
      (f.Drawn env.symbols.classNames ∧ f.owner = some owner) ∧ f.name = name := by
  unfold method
  refine (params_gives hcfg hE).bind fun ps hps => ?_
  refine resultType_gives.bind fun result hresult => ?_
  exact Gives.pure ⟨⟨.of_parts name (some owner) hps hresult, rfl⟩, rfl⟩

omit hE

/-- A field is drawn. -/
theorem field_gives (earlier : List ClassRef) (name : String) :
    Gives E (field env earlier name : Draw ρ Field) fun f =>
      f.Drawn earlier ∧ f.name = name := by
  unfold field
  refine (hcfg.chances.chance_gives "p_private_field" (by simp [Config.chances])).bind
    fun isPrivate _ => ?_
  dsimp only
  refine Gives.ite_bind (P := fun isObject => isObject = true → earlier ≠ [])
    (fun _ => Gives.pure (by simp)) (fun h => ?_) fun isObject hobject => ?_
  · refine (percent_gives (by decide)).mono fun b _ _ hnil => h ?_
    rw [hnil]
    rfl
  -- A field that holds an object needs an earlier class; every other one gets a constant.
  · apply Gives.ite
    · intro h
      refine (pick_gives fun hnil => absurd hnil (hobject h)).bind fun c hc => ?_
      exact Gives.pure ⟨.object hc, rfl⟩
    · intro _
      refine (percent_gives (by decide)).bind fun isNullable _ => ?_
      have htype : ∀ t : Ty, t.isConstInitializable = true → t.Proper → t.Within [] →
          Gives E (do
            let init ← constant env t
            return ⟨name, t, some init, if isPrivate then .privateMember else .publicMember⟩ :
            Draw ρ Field) fun f => f.Drawn earlier ∧ f.name = name := by
        intro t hinit ht hw
        refine (constant_gives hcfg.chances hinit ht).bind fun x hx => ?_
        exact Gives.pure ⟨.value hx hw, rfl⟩
      refine Gives.ite_bind (P := fun t => t.isConstInitializable = true ∧ t.Proper ∧ t.Within [])
        (fun _ => ?_) (fun _ => ?_) fun t ht => htype t ht.1 ht.2.1 ht.2.2
      · refine scalarType_gives.map fun t ht => ?_
        exact ⟨(Ty.Flat.scalar ht).isConstInitializable, .nullable ht.proper, ht.within.nullable⟩
      · exact constType_gives.mono fun t ht => ⟨ht.isConstInitializable, ht.proper, ht.within⟩

include hE

/-- A class is drawn. -/
theorem classType_gives (earlier : List ClassRef) (c : ClassRef) :
    Gives E (classType env earlier c : Draw ρ ClassType)
      (ClassType.Drawn env.symbols.classNames earlier c) := by
  unfold classType
  refine (hcfg.range_gives "fields" (by simp [Config.ranges])).bind fun n _ => ?_
  refine (Gives.each_named fun k _ => field_gives hcfg earlier (fieldName k)).bind
    fun fields hfields => ?_
  refine (hcfg.range_gives "methods" (by simp [Config.ranges])).bind fun m _ => ?_
  refine (Gives.each_named fun k _ => method_gives hcfg hE c (methodName k)).bind
    fun methods hmethods => ?_
  exact Gives.pure ⟨rfl, hfields.1, ⟨n, hfields.2⟩, hmethods.1, m, hmethods.2⟩

/-- The functions of a library file are drawn, as many as the configuration allows. -/
theorem libFuncs_gives (i : Nat) :
    Gives E (libFuncs env i : Draw ρ (List FuncType)) fun fs =>
      ((∀ f ∈ fs, f.Drawn env.symbols.classNames ∧ f.owner = none) ∧ ∃ n, fs.map (·.name) =
        (List.range n).map fun k => "lib" ++ toString i ++ "_f" ++ toString k) ∧
      env.config.libFuncs.min ≤ fs.length ∧ fs.length ≤ env.config.libFuncs.max := by
  unfold libFuncs
  refine (hcfg.range_gives "lib_funcs" (by simp [Config.ranges])).bind fun n hn => ?_
  refine (Gives.each_named fun k _ => function_gives hcfg hE _).mono fun fs hfs => ?_
  have hlen : fs.length = n := by simpa using congrArg List.length hfs.2
  rw [hlen]
  exact ⟨⟨hfs.1, n, hfs.2⟩, hn⟩

end Settings

end Draw

end TypedPhp
