import P4LS.Library.Json

/-!
# Objects with optional members

An object is written from a list of fields.  A field that is absent may be left
out or written as `null`, and the members may come in any order.  A decoder that
asks for the members one after another reads back what was written.
-/

namespace Json

variable {fields : List (Bytes × Option (Json → Prop))} {ms ms' : List (Bytes × Json)}
  {name : Bytes} {json value : Json} {P : Json → Prop}

/-! ## Writing -/

/-- The members written for fields in their order.  A field that is present has a property of what
is written for it. -/
inductive Written : List (Bytes × Option (Json → Prop)) → List (Bytes × Json) → Prop where
  | nil : Written [] []
  | omitted {name : Bytes} {fields : List (Bytes × Option (Json → Prop))}
      {ms : List (Bytes × Json)} (rest : Written fields ms) : Written ((name, none) :: fields) ms
  | asNull {name : Bytes} {fields : List (Bytes × Option (Json → Prop))}
      {ms : List (Bytes × Json)} (rest : Written fields ms) :
      Written ((name, none) :: fields) ((name, null) :: ms)
  | present {name : Bytes} {P : Json → Prop} {value : Json}
      {fields : List (Bytes × Option (Json → Prop))} {ms : List (Bytes × Json)} (h : P value)
      (rest : Written fields ms) : Written ((name, some P) :: fields) ((name, value) :: ms)

/-- An object with the members of the fields, in any order. -/
def ObjectOf (fields : List (Bytes × Option (Json → Prop))) (json : Json) : Prop :=
  ∃ written ms, Written fields written ∧ ms.Perm written ∧ json = object ms

theorem ObjectOf.isObject (h : ObjectOf fields json) : json.IsObject := by
  obtain ⟨_, ms, _, _, rfl⟩ := h
  exact ⟨ms, rfl⟩

theorem IsObject.ne_null (h : json.IsObject) : json ≠ null := by
  obtain ⟨ms, rfl⟩ := h
  exact fun h => by cases h

/-- There is something to write for every field that is present. -/
def Writable (fields : List (Bytes × Option (Json → Prop))) : Prop :=
  ∀ field ∈ fields, ∀ P ∈ field.2, ∃ value, P value

theorem writable_nil : Writable [] := fun _ hmem => absurd hmem List.not_mem_nil

theorem Writable.cons {α : Type} {encodes : α → Json → Prop} {a? : Option α}
    (h : ∀ a, ∃ value, encodes a value) (hrest : Writable fields) :
    Writable ((name, a?.map encodes) :: fields) := by
  intro field hmem P hP
  rcases List.mem_cons.mp hmem with rfl | hmem
  · obtain ⟨a, _, rfl⟩ := Option.map_eq_some_iff.mp hP
    exact h a
  · exact hrest field hmem P hP

theorem exists_objectOf (h : Writable fields) : ∃ json, ObjectOf fields json := by
  have hwritten : ∃ written, Written fields written := by
    induction fields with
    | nil => exact ⟨[], .nil⟩
    | cons field fields ih =>
      obtain ⟨name, P?⟩ := field
      obtain ⟨written, hwritten⟩ := ih fun field hmem => h field (List.mem_cons_of_mem _ hmem)
      cases P? with
      | none => exact ⟨written, .omitted hwritten⟩
      | some P =>
        obtain ⟨value, hvalue⟩ := h (name, some P) List.mem_cons_self P rfl
        exact ⟨_, .present hvalue hwritten⟩
  obtain ⟨written, hwritten⟩ := hwritten
  exact ⟨object written, written, written, hwritten, .refl _, rfl⟩

/-! ## Looking up what was written -/

theorem Written.sublist (h : Written fields ms) :
    (ms.map Prod.fst).Sublist (fields.map Prod.fst) := by
  induction h with
  | nil => exact .slnil
  | omitted _ ih => exact ih.cons _
  | asNull _ ih => exact ih.cons_cons _
  | present _ _ ih => exact ih.cons_cons _

theorem name_mem {γ : Type} {entries : List (Bytes × γ)} {entry : γ}
    (h : (name, entry) ∈ entries) : name ∈ entries.map Prod.fst :=
  List.mem_map.mpr ⟨_, h, rfl⟩

theorem mem_of_lookup (h : ms.lookup name = some value) : (name, value) ∈ ms := by
  obtain ⟨before, after, hms, _⟩ := List.lookup_eq_some_iff.mp h
  rw [hms]
  exact List.mem_append_right _ List.mem_cons_self

/-- Without repeated names a lookup is membership. -/
theorem lookup_of_mem (hnodup : (ms.map Prod.fst).Nodup) (h : (name, value) ∈ ms) :
    ms.lookup name = some value := by
  induction ms with
  | nil => exact absurd h List.not_mem_nil
  | cons entry ms ih =>
    obtain ⟨name', value'⟩ := entry
    obtain ⟨hnot, hnodup⟩ := List.nodup_cons.mp hnodup
    rw [List.lookup_cons]
    rcases List.mem_cons.mp h with heq | hmem
    · cases heq
      rw [beq_self_eq_true]
    · have hne : (name == name') = false := by
        rw [beq_eq_false_iff_ne]
        rintro rfl
        exact hnot (name_mem hmem)
      rw [hne]
      exact ih hnodup hmem

/-- The member of an absent field is not there or `null`, and that of a present one has its
property. -/
def Field (name : Bytes) (json : Json) : Option (Json → Prop) → Prop
  | none => json.get? name = none ∨ json.get? name = some null
  | some P => ∃ value, json.get? name = some value ∧ P value

def Fields (json : Json) : List (Bytes × Option (Json → Prop)) → Prop
  | [] => True
  | (name, P?) :: fields => Field name json P? ∧ Fields json fields

theorem fields_of_forall (h : ∀ field ∈ fields, Field field.1 json field.2) :
    Fields json fields := by
  induction fields with
  | nil => exact trivial
  | cons field fields ih =>
    exact ⟨h field List.mem_cons_self, ih fun field hmem => h field (List.mem_cons_of_mem _ hmem)⟩

theorem Written.eq_null (h : Written fields ms) (hnodup : (fields.map Prod.fst).Nodup)
    (hfield : (name, none) ∈ fields) (hmem : (name, value) ∈ ms) : value = null := by
  induction h with
  | nil => exact absurd hmem List.not_mem_nil
  | omitted hrest ih =>
    obtain ⟨hnot, hrestNodup⟩ := List.nodup_cons.mp hnodup
    rcases List.mem_cons.mp hfield with heq | hlater
    · cases heq
      exact absurd (hrest.sublist.subset (name_mem hmem)) hnot
    · exact ih hrestNodup hlater hmem
  | asNull hrest ih =>
    obtain ⟨hnot, hrestNodup⟩ := List.nodup_cons.mp hnodup
    rcases List.mem_cons.mp hmem with heq | hwritten
    · cases heq
      rfl
    · rcases List.mem_cons.mp hfield with heq | hlater
      · cases heq
        exact absurd (hrest.sublist.subset (name_mem hwritten)) hnot
      · exact ih hrestNodup hlater hwritten
  | present _ hrest ih =>
    obtain ⟨hnot, hrestNodup⟩ := List.nodup_cons.mp hnodup
    rcases List.mem_cons.mp hfield with heq | hlater
    · cases heq
    · rcases List.mem_cons.mp hmem with heq | hwritten
      · cases heq
        exact absurd (name_mem hlater) hnot
      · exact ih hrestNodup hlater hwritten

theorem Written.exists_mem (h : Written fields ms) (hfield : (name, some P) ∈ fields) :
    ∃ value, (name, value) ∈ ms ∧ P value := by
  induction h with
  | nil => exact absurd hfield List.not_mem_nil
  | omitted _ ih =>
    rcases List.mem_cons.mp hfield with heq | hfield
    · cases heq
    · exact ih hfield
  | asNull _ ih =>
    rcases List.mem_cons.mp hfield with heq | hfield
    · cases heq
    · obtain ⟨value, hmem, hvalue⟩ := ih hfield
      exact ⟨value, List.mem_cons_of_mem _ hmem, hvalue⟩
  | present hvalue _ ih =>
    rcases List.mem_cons.mp hfield with heq | hfield
    · cases heq
      exact ⟨_, List.mem_cons_self, hvalue⟩
    · obtain ⟨value, hmem, hvalue⟩ := ih hfield
      exact ⟨value, List.mem_cons_of_mem _ hmem, hvalue⟩

/-- In an object of fields with different names every field is found. -/
theorem ObjectOf.holds (h : ObjectOf fields json) (hnodup : (fields.map Prod.fst).Nodup) :
    Fields json fields := by
  obtain ⟨written, ms, hwritten, hperm, rfl⟩ := h
  have hnames : (ms.map Prod.fst).Nodup :=
    (hperm.map Prod.fst).nodup_iff.mpr (hwritten.sublist.nodup hnodup)
  refine fields_of_forall fun field hfield => ?_
  obtain ⟨name, P?⟩ := field
  cases P? with
  | none =>
    cases hlookup : ms.lookup name with
    | none => exact .inl hlookup
    | some value =>
      have hnull := hwritten.eq_null hnodup hfield (hperm.mem_iff.mp (mem_of_lookup hlookup))
      exact .inr (hlookup.trans (congrArg some hnull))
  | some P =>
    obtain ⟨value, hmem, hvalue⟩ := hwritten.exists_mem hfield
    exact ⟨value, lookup_of_mem hnames (hperm.mem_iff.mpr hmem), hvalue⟩

/-! ## Reading back -/

/-- The decoder reads back what is written, which is never `null`. -/
def Reads {α : Type} (encodes : α → Json → Prop) (decode : Json → Except Fault α) : Prop :=
  ∀ a json, encodes a json → json ≠ null ∧ decode json = .ok a

theorem Field.member? {α : Type} {encodes : α → Json → Prop} {decode : Json → Except Fault α}
    {a? : Option α} (hreads : Reads encodes decode) (hobj : json.IsObject)
    (h : Field name json (a?.map encodes)) : json.member? name decode = .ok a? := by
  cases a? with
  | none =>
    rcases h with h | h
    · exact member?_absent hobj h
    · exact member?_null hobj h
  | some a =>
    obtain ⟨value, hvalue, hencodes⟩ := h
    obtain ⟨hne, hdecode⟩ := hreads a value hencodes
    rw [member?_present hobj hvalue hne, hdecode]
    rfl

/-- One member is read, and then the others. -/
theorem Field.read {α β : Type} {encodes : α → Json → Prop} {decode : Json → Except Fault α}
    {a? : Option α} {f : Option α → Except Fault β} {b : β} (hobj : json.IsObject)
    (h : Field name json (a?.map encodes)) (hreads : Reads encodes decode)
    (hrest : f a? = .ok b) : (json.member? name decode >>= f) = .ok b := by
  rw [h.member? hreads hobj]
  exact hrest

def EncodesBool (b : Bool) (json : Json) : Prop := json = bool b

theorem reads_bool : Reads EncodesBool getBool := by
  rintro b _ rfl
  exact ⟨fun h => (by cases h), rfl⟩

/-- The values of a list are written in their order. -/
def EncodesList {α : Type} (encode : α → Json) (as : List α) (json : Json) : Prop :=
  json = array (as.map encode)

theorem reads_list {α : Type} {encode : α → Json} {decode : Json → Except Fault α}
    (h : ∀ a, decode (encode a) = .ok a) : Reads (EncodesList encode) (getList decode) := by
  rintro as _ rfl
  refine ⟨fun h => (by cases h), ?_⟩
  show (as.map encode).mapM decode = .ok as
  induction as with
  | nil => rfl
  | cons a as ih =>
    rw [List.map_cons, List.mapM_cons, h a, ih]
    rfl

end Json
