import TypedPhp.Proofs.SymbolTable.History

set_option autoImplicit false

/-!
# The discipline of a table

What holds after every history of operations (`SymbolTable.History.disciplined`). An operation faults
exactly if the history refuses it, and then the table is what it was. Names and places of classes
determine each other, and so the references that a table issues are equal exactly if their names are.
Whatever comes later, a class that is defined and a function that is added stay as they are, and a
placeholder is changed by a definition of its own name only.
-/

namespace TypedPhp.SymbolTable.History

variable {h : History} {name : String} {id : Nat} {c : ClassType} {f : FuncType}

/-! ## Classes and functions of a sound history -/

namespace Sound

/-- The classes of the table are those that the accepted calls declare. -/
theorem classes_eq (hs : Sound h) :
    h.table.classes = (declared h.calls).map (classOf h.calls) := by
  by_cases hfrozen : h.Frozen
  · rw [hs.ofFrozen hfrozen]
    rfl
  · rw [hs.ofOpen hfrozen]
    rfl

/-- The functions of the table are those that the accepted calls add. -/
theorem funcs_eq (hs : Sound h) : h.table.funcs = added h.calls := by
  by_cases hfrozen : h.Frozen
  · rw [hs.ofFrozen hfrozen]
    rfl
  · rw [hs.ofOpen hfrozen]
    rfl

theorem classAt_eq_ok_iff (hs : Sound h) :
    h.table.classAt id = .ok c ↔
      ∃ name, (declared h.calls)[id]? = some name ∧ classOf h.calls name = c := by
  rw [classAt, elemAt_eq_ok_iff, hs.classes_eq, List.getElem?_map, Option.map_eq_some_iff]

theorem funcAt_eq_ok_iff (hs : Sound h) :
    h.table.funcAt id = .ok f ↔ (added h.calls)[id]? = some f := by
  rw [funcAt, elemAt_eq_ok_iff, hs.funcs_eq]

/-- A class is found by its name where the name is declared. -/
theorem classByName?_eq_some_iff (hs : Sound h) :
    h.table.classByName? name = some id ↔ (declared h.calls)[id]? = some name := by
  have hsame : h.table.classByName? name = (tableOf h.calls).classByName? name := by
    rw [classByName?, hs.classes_eq]
    rfl
  rw [hsame, classByName?_tableOf]
  constructor
  · intro hfound
    by_cases hname : name ∈ declared h.calls
    · rw [if_pos hname, Option.some.injEq] at hfound
      rw [← hfound]
      exact List.getElem?_idxOf hname
    · rw [if_neg hname] at hfound
      cases hfound
  · intro hget
    obtain ⟨hlt, rfl⟩ := List.getElem?_eq_some_iff.1 hget
    rw [if_pos (List.getElem_mem hlt), hs.lawful.declared_nodup.idxOf_getElem id hlt]

/-- A reference is issued where its name is declared. -/
theorem mem_issued_iff (hs : Sound h) {r : ClassRef} :
    r ∈ h.issued ↔ (declared h.calls)[r.id]? = some r.name := by
  rw [hs.issued, refs, List.mem_map]
  constructor
  · rintro ⟨p, hp, rfl⟩
    exact List.mem_zipIdx_iff_getElem?.1 hp
  · intro hget
    exact ⟨(r.name, r.id), List.mem_zipIdx_iff_getElem?.2 hget, rfl⟩

/-- An operation faults exactly if the history refuses it. -/
theorem faults_iff (hs : Sound h) (op : Operation) :
    (∃ fault t, op.perform.run h.table = .error fault t) ↔ h.Refuses op := by
  rw [Operation.run_perform]
  cases hs.outcome op with
  | refused fault hrefuses hresult =>
      rw [hresult]
      exact iff_of_true ⟨fault, h.table, rfl⟩ hrefuses
  | accepted answer t hrefuses hresult _ =>
      rw [hresult]
      refine iff_of_false ?_ hrefuses
      rintro ⟨fault, t', heq⟩
      cases heq

/-- The references that are issued are those to the classes of the table. -/
theorem issued_eq_classes (hs : Sound h) :
    h.issued = h.table.classes.zipIdx.map fun p => ⟨p.2, p.1.name⟩ := by
  rw [hs.issued, refs, hs.classes_eq, List.zipIdx_map, List.map_map]
  apply List.map_congr_left
  intro p _
  simp [name_classOf]

theorem names_issued (hs : Sound h) : h.issued.map (·.name) = declared h.calls := by
  rw [hs.issued, refs, List.map_map]
  exact List.zipIdx_map_fst 0 (declared h.calls)

/-- A reference that is read off the table is issued. -/
theorem mem_issued_of_classRef (hs : Sound h) {r : ClassRef} (hr : h.table.classRef id = .ok r) :
    r ∈ h.issued := by
  rw [classRef] at hr
  cases hc : h.table.classAt id with
  | error fault =>
      rw [hc] at hr
      cases hr
  | ok c =>
      rw [hc] at hr
      obtain rfl := Except.ok.inj hr
      obtain ⟨name, hname, rfl⟩ := hs.classAt_eq_ok_iff.1 hc
      rw [hs.mem_issued_iff, name_classOf]
      exact hname

/-- References that are issued are equal if their names are. -/
theorem eq_of_name_eq (hs : Sound h) {r r' : ClassRef} (hr : r ∈ h.issued) (hr' : r' ∈ h.issued)
    (hname : r.name = r'.name) : r = r' := by
  have hplace := hs.classByName?_eq_some_iff.2 (hs.mem_issued_iff.1 hr)
  have hplace' := hs.classByName?_eq_some_iff.2 (hs.mem_issued_iff.1 hr')
  rw [hname, hplace', Option.some.injEq] at hplace
  cases r with
  | mk id name =>
      cases r' with
      | mk id' name' => exact (ClassRef.mk.injEq ..).mpr ⟨hplace.symm, hname⟩

end Sound

/-! ## Names and places -/

/-- Names and places of classes determine each other. The references that are issued are those
to the classes of the table, in the order of their declarations. -/
structure Named (h : History) : Prop where
  placeOfName : ∀ id c, h.table.classAt id = .ok c → h.table.classByName? c.name = some id
  nameOfPlace : ∀ name id, h.table.classByName? name = some id →
    ∃ c, h.table.classAt id = .ok c ∧ c.name = name
  issued : h.issued = h.table.classes.zipIdx.map fun p => ⟨p.2, p.1.name⟩
  names : h.issued.map (·.name) = declared h.calls
  read : ∀ id r, h.table.classRef id = .ok r → r ∈ h.issued
  eqIff : ∀ r ∈ h.issued, ∀ r' ∈ h.issued, r = r' ↔ r.name = r'.name

/-- In a sound history names and places determine each other. -/
theorem Sound.named (hs : Sound h) : Named h where
  placeOfName := by
    intro id c hc
    obtain ⟨name, hname, rfl⟩ := hs.classAt_eq_ok_iff.1 hc
    rw [hs.classByName?_eq_some_iff, name_classOf]
    exact hname
  nameOfPlace := by
    intro name id hid
    have hname := hs.classByName?_eq_some_iff.1 hid
    exact ⟨_, hs.classAt_eq_ok_iff.2 ⟨name, hname, rfl⟩, name_classOf _ _⟩
  issued := hs.issued_eq_classes
  names := hs.names_issued
  read _ _ hr := hs.mem_issued_of_classRef hr
  eqIff _ hr _ hr' := ⟨congrArg ClassRef.name, hs.eq_of_name_eq hr hr'⟩

/-! ## Answers -/

/-- An answer leads to what the call of it is about. -/
def Resolves (h : History) : Call → Call.Answer → Prop
  | .declare name, .declared ref => ref.name = name ∧ h.table.classByName? name = some ref.id
  | .define c, .defined id =>
      h.table.classByName? c.name = some id ∧ h.table.classAt id = .ok { c with isDefined := true }
  | .add f, .added id => h.table.funcAt id = .ok f
  | _, _ => False

/-- In a sound history all answers of calls lead to what the calls are about. -/
theorem Sound.resolves (hs : Sound h) {call : Call} {answer : Call.Answer}
    (hmem : (.build call, .built answer) ∈ h.log) : h.Resolves call answer := by
  have hplaces := hs.answers call answer hmem
  cases call with
  | declare name =>
      cases answer with
      | declared ref =>
          obtain ⟨hname, hget⟩ := hplaces
          exact ⟨hname, hs.classByName?_eq_some_iff.2 hget⟩
      | _ => exact hplaces.elim
  | define c =>
      cases answer with
      | defined id =>
          obtain ⟨hc, hget⟩ := hplaces
          refine ⟨hs.classByName?_eq_some_iff.2 hget, hs.classAt_eq_ok_iff.2 ⟨c.name, hget, ?_⟩⟩
          exact hs.lawful.classOf_of_mem hc
      | _ => exact hplaces.elim
  | add f =>
      cases answer with
      | added id => exact hs.funcAt_eq_ok_iff.2 hplaces
      | _ => exact hplaces.elim

/-! ## Later operations -/

/-- One more operation accepts its own call, if any. -/
theorem calls_next (h : History) (op : Operation) :
    ∃ new, (h.next op).calls = h.calls ++ new ∧ ∀ call ∈ new, op = .build call := by
  rw [next]
  cases op.perform.run h.table with
  | ok answer t =>
      refine ⟨op.call?.toList, calls_push, ?_⟩
      intro call hcall
      cases op with
      | build own =>
          obtain rfl : call = own := by simpa [Operation.call?] using hcall
          rfl
      | _ => simp [Operation.call?] at hcall
  | error fault t => exact ⟨[], (List.append_nil _).symm, by simp⟩

/-- More operations accept calls of their own. -/
theorem calls_of_append (ops more : List Operation) :
    ∃ new, (of (ops ++ more)).calls = (of ops).calls ++ new ∧
      ∀ call ∈ new, .build call ∈ more := by
  induction more using List.reverseRecOn with
  | nil => exact ⟨[], by simp, by simp⟩
  | append_singleton more op ih =>
      obtain ⟨new, hnew, hcalls⟩ := ih
      obtain ⟨last, hlast, hop⟩ := calls_next (of (ops ++ more)) op
      refine ⟨new ++ last, ?_, ?_⟩
      · rw [← List.append_assoc, ← List.append_assoc, ← hnew, ← hlast, of, List.foldl_append]
        rfl
      · intro call hcall
        rcases List.mem_append.1 hcall with hcall | hcall
        · exact List.mem_append_left _ (hcalls call hcall)
        · simp [hop call hcall]

/-- What operations leave as it is: a class that is defined, a function, the references that are
issued, and a placeholder whose name none of them defines. -/
structure Preserves (h later : History) (more : List Operation) : Prop where
  defined : ∀ id c, h.table.classAt id = .ok c → c.isDefined = true →
    later.table.classAt id = .ok c
  placeholder : ∀ id c, h.table.classAt id = .ok c → c.isDefined = false →
    later.table.classAt id = .ok c ∨
      ∃ d, .build (.define d) ∈ more ∧ d.name = c.name ∧
        later.table.classAt id = .ok { d with isDefined := true }
  added : ∀ id f, h.table.funcAt id = .ok f → later.table.funcAt id = .ok f
  issued : ∀ r ∈ h.issued, r ∈ later.issued

namespace Sound

variable {later : History} {new : List Call}

/-- A name stays where it is declared. -/
theorem declared_later (hcalls : later.calls = h.calls ++ new)
    (hname : (declared h.calls)[id]? = some name) : (declared later.calls)[id]? = some name := by
  rw [hcalls, declared_append]
  exact getElem?_append_of_eq_some hname (declared new)

/-- A class that is defined stays. -/
theorem classAt_later (hs : Sound h) (hlater : Sound later)
    (hcalls : later.calls = h.calls ++ new) (hc : h.table.classAt id = .ok c)
    (hdefined : c.isDefined = true) : later.table.classAt id = .ok c := by
  obtain ⟨name, hname, rfl⟩ := hs.classAt_eq_ok_iff.1 hc
  refine hlater.classAt_eq_ok_iff.2 ⟨name, declared_later hcalls hname, ?_⟩
  rw [hcalls]
  exact classOf_append (isDefined_classOf.1 hdefined) new

/-- A class stays or is one that new calls define. -/
theorem classAt_later_or (hs : Sound h) (hlater : Sound later)
    (hcalls : later.calls = h.calls ++ new) (hc : h.table.classAt id = .ok c) :
    later.table.classAt id = .ok c ∨
      ∃ d ∈ SymbolTable.defined new, d.name = c.name ∧
        later.table.classAt id = .ok { d with isDefined := true } := by
  obtain ⟨name, hname, rfl⟩ := hs.classAt_eq_ok_iff.1 hc
  by_cases hnew : name ∈ (SymbolTable.defined new).map (·.name)
  · right
    obtain ⟨d, hd, rfl⟩ := List.mem_map.1 hnew
    refine ⟨d, hd, (name_classOf _ _).symm, ?_⟩
    refine hlater.classAt_eq_ok_iff.2 ⟨d.name, declared_later hcalls hname, ?_⟩
    apply hlater.lawful.classOf_of_mem
    rw [hcalls, defined_append]
    exact List.mem_append_right _ hd
  · left
    refine hlater.classAt_eq_ok_iff.2 ⟨name, declared_later hcalls hname, ?_⟩
    rw [hcalls]
    exact classOf_append_of_not_mem hnew

/-- What a history that goes on leaves as it is. -/
theorem preserves {more : List Operation} (hs : Sound h) (hlater : Sound later)
    (hcalls : later.calls = h.calls ++ new) (hmore : ∀ call ∈ new, .build call ∈ more) :
    Preserves h later more where
  defined _ _ hc hdefined := hs.classAt_later hlater hcalls hc hdefined
  placeholder := by
    intro id c hc _
    refine (hs.classAt_later_or hlater hcalls hc).imp_right ?_
    rintro ⟨d, hd, hname, hat⟩
    exact ⟨d, hmore _ (mem_defined_iff.1 hd), hname, hat⟩
  added := by
    intro id f hf
    rw [hlater.funcAt_eq_ok_iff, hcalls, added_append]
    exact getElem?_append_of_eq_some (hs.funcAt_eq_ok_iff.1 hf) (SymbolTable.added new)
  issued := by
    intro r hr
    exact hlater.mem_issued_iff.2 (declared_later hcalls (hs.mem_issued_iff.1 hr))

end Sound

/-! ## The discipline -/

/-- The discipline of a table, after every history. An operation that is run write by write ends
as the operation of the table does, on every table. It faults exactly if the history refuses it, and
then the table is what it was. A table is frozen exactly after a freeze. Names and places of classes
determine each other, all answers lead to what was asked for, and whatever comes later changes
neither a class that is defined nor a function, and a placeholder by a definition of its name
only. -/
theorem disciplined (ops : List Operation) :
    (∀ t (op : Operation), op.perform.run t = Action.settle t (op.result t)) ∧
    (∀ op : Operation,
      (∃ fault t, op.perform.run (of ops).table = .error fault t) ↔ (of ops).Refuses op) ∧
    (∀ (op : Operation) fault t,
      op.perform.run (of ops).table = .error fault t → t = (of ops).table) ∧
    ((of ops).table.isFrozen = true ↔ (of ops).Frozen) ∧
    Named (of ops) ∧
    (∀ call answer, (.build call, .built answer) ∈ (of ops).log →
      (of ops).Resolves call answer) ∧
    ∀ more, Preserves (of ops) (of (ops ++ more)) more := by
  have hs := sound ops
  refine ⟨Operation.run_perform, ?_, ?_, hs.isFrozen_iff, hs.named, ?_, ?_⟩
  · exact hs.faults_iff
  · intro op fault t hrun
    exact Operation.eq_of_run_eq_error hrun
  · intro call answer hmem
    exact hs.resolves hmem
  · intro more
    obtain ⟨new, hcalls, hmore⟩ := calls_of_append ops more
    exact hs.preserves (sound (ops ++ more)) hcalls hmore

/-- Operations of which every second one or so faults. -/
def skippingOps : List Operation :=
  [.build (.define (.ofMembers "A" [] [])), .build (.declare "A"), .build (.declare "A"),
    .build (.declare "B"), .funcsOf (.array .int),
    .build (.define (.ofMembers "B" [⟨"size", .int, none, .publicMember⟩] [])),
    .build (.add (.function "f" [] (.array .int))), .build (.add (.function "f" [] .int)),
    .freeze, .freeze]

/-- Two classes are declared and one is defined. The table is frozen, so one more class is refused
and an array type is looked up. -/
theorem disciplined_skipping :
    (of skippingOps).issued = [⟨0, "A"⟩, ⟨1, "B"⟩] ∧
      (∃ fault, (Operation.build (.declare "C")).perform.run (of skippingOps).table =
        .error fault (of skippingOps).table) ∧
      (¬ ∃ fault t, (Operation.funcsOf (.array .int)).perform.run (of skippingOps).table =
        .error fault t) ∧
      (of skippingOps).table.classByName? "B" = some 1 := by
  obtain ⟨-, hfaults, hsame, -, hnamed, -, -⟩ := disciplined skippingOps
  have hfrozen : (of skippingOps).Frozen :=
    List.mem_of_getElem? (show ((of skippingOps).log.map (·.1))[4]? = some .freeze from rfl)
  refine ⟨rfl, ?_, ?_, ?_⟩
  · obtain ⟨fault, t, hrun⟩ := (hfaults (.build (.declare "C"))).2 (.inl hfrozen)
    obtain rfl := hsame _ fault t hrun
    exact ⟨fault, hrun⟩
  · rw [hfaults]
    rintro ⟨hopen, -⟩
    exact hopen hfrozen
  · exact hnamed.placeOfName 1
      { ClassType.ofMembers "B" [⟨"size", .int, none, .publicMember⟩] [] with isDefined := true } rfl

end TypedPhp.SymbolTable.History
