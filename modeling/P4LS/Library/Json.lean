import P4LS.Library.Bytes
import P4LS.Library.Outcome

/-!
# JSON values with checked accessors

A value is what the parser leaves in memory.  Strings are bytes, members keep
their order and may repeat, and a number is either an integer or the bits of a
double.  The accessors are taken to do what is documented of RapidJSON's: one that
is applied to a value of another type fails, which is the assertion of the library.
-/

inductive Json where
  | null
  | bool (b : Bool)
  | int (n : Int)
  | double (bits : UInt64)
  | string (s : Bytes)
  | array (xs : List Json)
  | object (ms : List (Bytes × Json))

namespace Json

/-- The assertions an accessor can fail. -/
inductive Fault where
  | notObject
  | noMember
  | notArray
  | outOfBounds
  | notInt
  | notBool
  | notString
  deriving DecidableEq

def isNull : Json → Bool
  | null => true
  | _ => false

/-- `FindMember`.  Of several members of one name it finds the first. -/
def findMember (name : Bytes) : Json → Except Fault (Option Json)
  | object ms => .ok (ms.lookup name)
  | _ => .error .notObject

def hasMember (name : Bytes) (json : Json) : Except Fault Bool := do
  let it ← json.findMember name
  return it.isSome

/-- `operator[]` with a member name. -/
def index (name : Bytes) (json : Json) : Except Fault Json := do
  match ← json.findMember name with
  | some value => return value
  | none => throw .noMember

/-- `operator[]` with an array index. -/
def at_ (i : Nat) : Json → Except Fault Json
  | array xs => match xs[i]? with
    | some value => .ok value
    | none => .error .outOfBounds
  | _ => .error .notArray

def getInt : Json → Except Fault Int
  | int n => if -2 ^ 31 ≤ n ∧ n < 2 ^ 31 then .ok n else .error .notInt
  | _ => .error .notInt

def getBool : Json → Except Fault Bool
  | bool b => .ok b
  | _ => .error .notBool

/-- `GetString`, read as a C string. -/
def getString : Json → Except Fault Bytes
  | string s => .ok (Bytes.cstr s)
  | _ => .error .notString

/-- The values from `Begin()` to `End()`. -/
def getArray : Json → Except Fault (List Json)
  | array xs => .ok xs
  | _ => .error .notArray

def getObject : Json → Except Fault Json
  | object ms => .ok (object ms)
  | _ => .error .notObject

/-! ## What a value has to be for an accessor to return -/

def IsObject (json : Json) : Prop := ∃ ms, json = object ms

def IsArrayOf (P : Json → Prop) (json : Json) : Prop := ∃ xs, json = array xs ∧ ∀ x ∈ xs, P x

/-- A number that fits the 32-bit `int`. -/
def IsInt (json : Json) : Prop := ∃ n : Int, json = int n ∧ -2 ^ 31 ≤ n ∧ n < 2 ^ 31

def IsBool (json : Json) : Prop := ∃ b, json = bool b

def IsString (json : Json) : Prop := ∃ s, json = string s

/-- The member of a name, if the value is an object that has one. -/
def get? (name : Bytes) : Json → Option Json
  | object ms => ms.lookup name
  | _ => none

@[simp] theorem get?_object (name : Bytes) (ms : List (Bytes × Json)) :
    (object ms).get? name = ms.lookup name := rfl

theorem IsObject.findMember {json : Json} (h : json.IsObject) (name : Bytes) :
    json.findMember name = .ok (json.get? name) := by
  obtain ⟨ms, rfl⟩ := h
  rfl

theorem returns_findMember {json : Json} {name : Bytes} :
    (json.findMember name).Returns ↔ json.IsObject := by
  constructor
  · intro h
    obtain ⟨it, h⟩ := h
    cases json with
    | object ms => exact ⟨ms, rfl⟩
    | _ => cases h
  · intro h
    exact ⟨_, h.findMember name⟩

theorem findMember_eq_ok {json : Json} {name : Bytes} {it : Option Json} :
    json.findMember name = .ok it ↔ json.IsObject ∧ it = json.get? name := by
  constructor
  · intro h
    have hobj : json.IsObject := returns_findMember.mp ⟨it, h⟩
    rw [hobj.findMember] at h
    exact ⟨hobj, (Except.ok.inj h).symm⟩
  · intro h
    obtain ⟨hobject, rfl⟩ := h
    exact hobject.findMember name

theorem IsObject.hasMember {json : Json} (h : json.IsObject) (name : Bytes) :
    json.hasMember name = .ok (json.get? name).isSome := by
  rw [Json.hasMember, h.findMember]
  rfl

theorem index_of_get? {json value : Json} {name : Bytes} (h : json.get? name = some value) :
    json.index name = .ok value := by
  cases json with
  | object ms =>
    rw [index, IsObject.findMember ⟨ms, rfl⟩, h]
    rfl
  | _ => cases h

theorem getInt_eq_ok {n m : Int} :
    (int n).getInt = .ok m ↔ m = n ∧ -2 ^ 31 ≤ n ∧ n < 2 ^ 31 := by
  by_cases h : -2 ^ 31 ≤ n ∧ n < 2 ^ 31
  · rw [getInt, if_pos h, and_iff_left h]
    constructor
    · intro hm
      exact (Except.ok.inj hm).symm
    · intro hm
      rw [hm]
  · rw [getInt, if_neg h]
    exact iff_of_false (fun hm => by cases hm) fun hm => h hm.2

theorem returns_getInt {json : Json} : json.getInt.Returns ↔ json.IsInt := by
  cases json with
  | int n =>
    by_cases h : -2 ^ 31 ≤ n ∧ n < 2 ^ 31
    · exact iff_of_true ⟨n, if_pos h⟩ ⟨n, rfl, h⟩
    · refine iff_of_false ?_ ?_
      · rw [getInt, if_neg h]
        exact Except.not_returns_error _
      · intro hint
        obtain ⟨m, hm, hrange⟩ := hint
        cases hm
        exact h hrange
  | _ => simp [getInt, IsInt]

theorem returns_getBool {json : Json} : json.getBool.Returns ↔ json.IsBool := by
  cases json <;> simp [getBool, IsBool]

theorem returns_getString {json : Json} : json.getString.Returns ↔ json.IsString := by
  cases json <;> simp [getString, IsString]

/-- Decode every value from `Begin()` to `End()`. -/
def getList {α : Type} (decode : Json → Except Fault α) (json : Json) : Except Fault (List α) := do
  (← json.getArray).mapM decode

theorem isArrayOf_congr {P Q : Json → Prop} {json : Json} (h : ∀ v, P v ↔ Q v) :
    json.IsArrayOf P ↔ json.IsArrayOf Q := by
  have hPQ : P = Q := funext fun v => propext (h v)
  rw [hPQ]

theorem returns_getList {α : Type} {json : Json} {decode : Json → Except Fault α}
    {P : Json → Prop} (h : ∀ v, (decode v).Returns ↔ P v) :
    (json.getList decode).Returns ↔ json.IsArrayOf P := by
  rw [← isArrayOf_congr h]
  cases json with
  | array xs =>
    have hlist : getList decode (array xs) = xs.mapM decode := rfl
    rw [hlist, Except.returns_mapM]
    simp [IsArrayOf]
  | _ => simp [getList, getArray, IsArrayOf, Except.returns_bind]

/-- An optional member, `null` standing for an absent one. -/
def member? {α : Type} (name : Bytes) (decode : Json → Except Fault α) (json : Json) :
    Except Fault (Option α) := do
  if ← json.hasMember name then
    let value ← json.index name
    if value.isNull then
      return none
    else
      return some (← decode value)
  else
    return none

/-- The member of a name is absent, `null`, or has the property. -/
def Member? (name : Bytes) (P : Json → Prop) (json : Json) : Prop :=
  ∀ value, json.get? name = some value → value = null ∨ P value

theorem member?_absent {α : Type} {json : Json} {name : Bytes} {decode : Json → Except Fault α}
    (hobj : json.IsObject) (h : json.get? name = none) :
    json.member? name decode = .ok none := by
  simp [member?, hobj.hasMember, h, bind, Except.bind, pure, Except.pure]

theorem member?_null {α : Type} {json : Json} {name : Bytes} {decode : Json → Except Fault α}
    (hobj : json.IsObject) (h : json.get? name = some null) :
    json.member? name decode = .ok none := by
  simp [member?, hobj.hasMember, h, index_of_get? h, isNull, bind, Except.bind, pure, Except.pure]

theorem member?_present {α : Type} {json value : Json} {name : Bytes}
    {decode : Json → Except Fault α} (hobj : json.IsObject) (h : json.get? name = some value)
    (hv : value ≠ null) : json.member? name decode = some <$> decode value := by
  have hnull : value.isNull = false := by
    cases value with
    | null => exact absurd rfl hv
    | _ => rfl
  simp only [member?, hobj.hasMember, h, index_of_get? h, hnull, bind, Except.bind,
    Option.isSome_some, if_true, Bool.false_eq_true, if_false]
  cases decode value <;> rfl

theorem member?_of_not_object {α : Type} {json : Json} {name : Bytes}
    {decode : Json → Except Fault α} (hobj : ¬ json.IsObject) :
    ¬ (json.member? name decode).Returns := by
  intro h
  obtain ⟨a, h⟩ := h
  obtain ⟨b, hb, _⟩ := Except.bind_eq_ok.mp h
  obtain ⟨m, hm, _⟩ := Except.bind_eq_ok.mp hb
  exact hobj (returns_findMember.mp ⟨m, hm⟩)

theorem returns_member? {α : Type} {json : Json} {name : Bytes} {decode : Json → Except Fault α} :
    (json.member? name decode).Returns ↔
      json.IsObject ∧ json.Member? name fun value => (decode value).Returns := by
  by_cases hobj : json.IsObject
  · rw [and_iff_right hobj]
    unfold Member?
    cases h : json.get? name with
    | none => exact iff_of_true ⟨_, member?_absent hobj h⟩ (fun _ hc => by cases hc)
    | some value =>
      by_cases hv : value = null
      · subst hv
        exact iff_of_true ⟨_, member?_null hobj h⟩ (fun _ hc => .inl (Option.some.inj hc).symm)
      · rw [member?_present hobj h hv, Except.returns_map]
        constructor
        · intro hd v hc
          cases hc
          exact .inr hd
        · intro hd
          exact (hd value rfl).resolve_left hv
  · exact iff_of_false (member?_of_not_object hobj) fun h => hobj h.1

/-- The member of the name is absent or `null`. -/
def Missing (name : Bytes) : Json → Prop := Member? name fun _ => False

theorem member?_eq_none {α : Type} {json : Json} {name : Bytes} {decode : Json → Except Fault α} :
    json.member? name decode = .ok none ↔ json.IsObject ∧ json.Missing name := by
  by_cases hobj : json.IsObject
  · rw [and_iff_right hobj]
    cases h : json.get? name with
    | none =>
      rw [member?_absent hobj h]
      refine iff_of_true rfl fun v hv => ?_
      rw [h] at hv
      cases hv
    | some value =>
      by_cases hv : value = null
      · subst hv
        rw [member?_null hobj h]
        refine iff_of_true rfl fun v hv => ?_
        rw [h] at hv
        exact .inl (Option.some.inj hv).symm
      · rw [member?_present hobj h hv]
        refine iff_of_false (fun hc => ?_) fun hc => (hc value h).elim hv id
        cases hd : decode value with
        | error e =>
          rw [hd] at hc
          cases hc
        | ok a =>
          rw [hd] at hc
          cases hc
  · exact iff_of_false (fun h => member?_of_not_object hobj ⟨none, h⟩) fun h => hobj h.1

/-! ## Members that are looked up -/

/-- If the value has a member of the name, the member has the property. -/
def WhenPresent (name : Bytes) (P : Json → Prop) (json : Json) : Prop :=
  ∀ value, json.get? name = some value → P value

/-- The value has a member of the name, and the member has the property. -/
def Required (name : Bytes) (P : Json → Prop) (json : Json) : Prop :=
  ∃ value, json.get? name = some value ∧ P value

theorem Required.isObject {name : Bytes} {P : Json → Prop} {json : Json}
    (h : Required name P json) : json.IsObject := by
  obtain ⟨value, hv, _⟩ := h
  cases json with
  | object ms => exact ⟨ms, rfl⟩
  | _ => cases hv

theorem whenPresent_of_get? {name : Bytes} {P : Json → Prop} {json value : Json}
    (h : json.get? name = some value) : WhenPresent name P json ↔ P value := by
  constructor
  · intro hw
    exact hw value h
  · intro hP v hv
    rw [h] at hv
    rwa [← Option.some.inj hv]

theorem whenPresent_of_absent {name : Bytes} {P : Json → Prop} {json : Json}
    (h : json.get? name = none) : WhenPresent name P json := by
  intro v hv
  rw [h] at hv
  cases hv

theorem index_eq_ok {json value : Json} {name : Bytes} :
    json.index name = .ok value ↔ json.get? name = some value := by
  constructor
  · intro h
    obtain ⟨it, hit, hv⟩ := Except.bind_eq_ok.mp h
    obtain ⟨_, rfl⟩ := findMember_eq_ok.mp hit
    cases hg : json.get? name with
    | none =>
      rw [hg] at hv
      cases hv
    | some v =>
      rw [hg] at hv
      rw [Except.ok.inj hv]
  · exact index_of_get?

/-- A member that is read when `FindMember` finds it. -/
def find? {α : Type} (name : Bytes) (decode : Json → Except Fault α) (json : Json) :
    Except Fault (Option α) := do
  match ← json.findMember name with
  | none => return none
  | some value => return some (← decode value)

theorem find?_absent {α : Type} {name : Bytes} {decode : Json → Except Fault α} {json : Json}
    (hobj : json.IsObject) (h : json.get? name = none) : json.find? name decode = .ok none := by
  rw [find?, hobj.findMember, h]
  rfl

theorem find?_present {α : Type} {name : Bytes} {decode : Json → Except Fault α}
    {json value : Json} (h : json.get? name = some value) :
    json.find? name decode = some <$> decode value := by
  have hobj : json.IsObject := Required.isObject (P := fun _ => True) ⟨value, h, trivial⟩
  rw [find?, hobj.findMember, h]
  rfl

/-- Decoding an optional member undoes encoding it. -/
theorem find?_map {α β : Type} {name : Bytes} {decode : Json → Except Fault β} {encode : α → Json}
    {g : α → β} {json : Json} {a? : Option α} (hobj : json.IsObject)
    (h : json.get? name = a?.map encode) (hdecode : ∀ a ∈ a?, decode (encode a) = .ok (g a)) :
    json.find? name decode = .ok (a?.map g) := by
  cases a? with
  | none => exact find?_absent hobj h
  | some a =>
    rw [find?_present h, hdecode a rfl]
    rfl

theorem returns_find? {α : Type} {name : Bytes} {decode : Json → Except Fault α} {json : Json}
    {P : Json → Prop} (hdecode : ∀ v, (decode v).Returns ↔ P v) :
    (json.find? name decode).Returns ↔ json.IsObject ∧ WhenPresent name P json := by
  by_cases hobj : json.IsObject
  · rw [and_iff_right hobj]
    cases h : json.get? name with
    | none => exact iff_of_true ⟨none, find?_absent hobj h⟩ (whenPresent_of_absent h)
    | some value =>
      rw [find?_present h, Except.returns_map, whenPresent_of_get? h]
      exact hdecode value
  · refine iff_of_false (fun h => ?_) fun h => hobj h.1
    obtain ⟨a, ha⟩ := h
    obtain ⟨it, hit, _⟩ := Except.bind_eq_ok.mp ha
    exact hobj (findMember_eq_ok.mp hit).1

/-- `operator[]` with a member name, and an accessor on what it returns. -/
def requiredMember {α : Type} (name : Bytes) (decode : Json → Except Fault α) (json : Json) :
    Except Fault α := do
  decode (← json.index name)

theorem returns_requiredMember {α : Type} {json : Json} {name : Bytes} {P : Json → Prop}
    {decode : Json → Except Fault α} (h : ∀ v, (decode v).Returns ↔ P v) :
    (json.requiredMember name decode).Returns ↔ Required name P json := by
  rw [requiredMember, Except.returns_bind]
  exact exists_congr fun v => and_congr index_eq_ok (h v)

theorem requiredMember_eq_ok {α : Type} {json : Json} {name : Bytes}
    {decode : Json → Except Fault α} {a : α} :
    json.requiredMember name decode = .ok a ↔
      ∃ v, json.get? name = some v ∧ decode v = .ok a :=
  Except.bind_eq_ok.trans (exists_congr fun _ => and_congr_left' index_eq_ok)

theorem returns_requiredMember_bind {α β : Type} {json : Json} {name : Bytes} {P : Json → Prop}
    {decode : Json → Except Fault α} {f : α → Except Fault β} {Q : Prop}
    (h : ∀ v, (decode v).Returns ↔ P v) (hf : ∀ a, (f a).Returns ↔ Q) :
    (json.requiredMember name decode >>= f).Returns ↔ Required name P json ∧ Q :=
  (Except.returns_bind_const hf).trans (and_congr_left' (returns_requiredMember h))

/-! ## Decoders that can report failure

A `set` that returns `false` is a decoder without a value. -/

/-- A value that a decoder may also refuse. -/
abbrev Decoder (α : Type) := OptionT (Except Fault) α

/-- Reading values, which a decoder cannot refuse. -/
def Decoder.read {α : Type} (x : Except Fault α) : Decoder α := liftM x

theorem returns_read {α : Type} {x : Except Fault α} :
    (Decoder.read x).run.Returns ↔ x.Returns := Except.returns_run_lift

theorem gives_read {α : Type} {x : Except Fault α} : (Decoder.read x).run.Gives ↔ x.Returns :=
  Except.gives_run_lift

theorem returns_read_bind {α β : Type} {x : Except Fault α} {f : α → Decoder β} {P Q : Prop}
    (hx : x.Returns ↔ P) (hf : ∀ a, (f a).run.Returns ↔ Q) :
    (Decoder.read x >>= f).run.Returns ↔ P ∧ Q :=
  (Except.returns_run_lift_bind hf).trans (and_congr_left' hx)

theorem gives_read_bind {α β : Type} {x : Except Fault α} {f : α → Decoder β} {P Q : Prop}
    (hx : x.Returns ↔ P) (hf : ∀ a, (f a).run.Gives ↔ Q) :
    (Decoder.read x >>= f).run.Gives ↔ P ∧ Q :=
  (Except.gives_run_lift_bind hf).trans (and_congr_left' hx)

theorem returns_read_last {α β : Type} {x : Except Fault α} {g : α → β} {P : Prop}
    (hx : x.Returns ↔ P) : (Decoder.read x >>= fun a => pure (g a)).run.Returns ↔ P :=
  (returns_read_bind hx fun _ => iff_of_true (Except.returns_run_pure _) trivial).trans
    (and_iff_left trivial)

theorem gives_read_last {α β : Type} {x : Except Fault α} {g : α → β} {P : Prop}
    (hx : x.Returns ↔ P) : (Decoder.read x >>= fun a => pure (g a)).run.Gives ↔ P :=
  (gives_read_bind hx fun _ => iff_of_true (Except.gives_run_pure _) trivial).trans
    (and_iff_left trivial)

/-- `FindMember`, where the decoder stops at `MemberEnd()`. -/
def memberOf (name : Bytes) (json : Json) : Decoder Json := OptionT.mk (json.findMember name)

theorem memberOf_eq_ok {json value : Json} {name : Bytes} :
    (json.memberOf name).run = .ok (some value) ↔ json.get? name = some value := by
  refine findMember_eq_ok.trans ?_
  constructor
  · intro h
    exact h.2.symm
  · intro h
    exact ⟨Required.isObject (P := fun _ => True) ⟨value, h, trivial⟩, h.symm⟩

theorem returns_memberOf_bind {α : Type} {json : Json} {name : Bytes} {P : Json → Prop}
    {f : Json → Decoder α} (h : ∀ v, (f v).run.Returns ↔ P v) :
    (json.memberOf name >>= f).run.Returns ↔ json.IsObject ∧ WhenPresent name P json := by
  rw [Except.returns_run_bind]
  refine and_congr returns_findMember (forall_congr' fun v => ?_)
  exact imp_congr memberOf_eq_ok (h v)

theorem gives_memberOf_bind {α : Type} {json : Json} {name : Bytes} {P : Json → Prop}
    {f : Json → Decoder α} (h : ∀ v, (f v).run.Gives ↔ P v) :
    (json.memberOf name >>= f).run.Gives ↔ Required name P json := by
  rw [Except.gives_run_bind]
  exact exists_congr fun v => and_congr memberOf_eq_ok (h v)

/-- A member that the decoder can do without: it goes on when there is none. -/
def optionalMember {α : Type} (name : Bytes) (decode : Json → Except Fault α) (json : Json) :
    Decoder (Option α) := .read (json.find? name decode)

/-! ## Members that are asked for first

A decoder may ask for several members before it reads any of them, and report
failure unless it has them all. -/

def hasMembers (names : List Bytes) (json : Json) : Except Fault Bool :=
  names.allM json.hasMember

def whenMembers {α : Type} (names : List Bytes) (json : Json) (x : Decoder α) : Decoder α := do
  if ← json.hasMembers names then x else failure

/-- The value has a member of every name. -/
def Members (names : List Bytes) (json : Json) : Prop := ∀ name ∈ names, (json.get? name).isSome

/-- An object that has the shape if it has the members that are asked for. -/
def Readable (names : List Bytes) (Shape : Json → Prop) (json : Json) : Prop :=
  json.IsObject ∧ (json.Members names → Shape json)

theorem Required.members {name : Bytes} {P : Json → Prop} {json : Json}
    (h : Required name P json) : (json.get? name).isSome := by
  obtain ⟨value, hv, _⟩ := h
  rw [hv]
  rfl

theorem IsObject.hasMembers {json : Json} (h : json.IsObject) (names : List Bytes) :
    json.hasMembers names = .ok (names.all fun name => (json.get? name).isSome) := by
  induction names with
  | nil => rfl
  | cons name names ih =>
    have hcons : Json.hasMembers (name :: names) json =
        json.hasMember name >>= fun b => if b then Json.hasMembers names json else pure false :=
      bind_congr fun b => by cases b <;> rfl
    rw [hcons, h.hasMember, ih, List.all_cons]
    cases (json.get? name).isSome <;> rfl

theorem whenMembers_of_members {α : Type} {names : List Bytes} {json : Json} {x : Decoder α}
    (hobj : json.IsObject) (h : json.Members names) : json.whenMembers names x = x := by
  have hall : (names.all fun name => (json.get? name).isSome) = true :=
    List.all_eq_true.mpr h
  rw [whenMembers, hobj.hasMembers, hall]
  rfl

theorem whenMembers_of_not_members {α : Type} {names : List Bytes} {json : Json} {x : Decoder α}
    (hobj : json.IsObject) (h : ¬ json.Members names) :
    (json.whenMembers names x).run = .ok none := by
  have hall : (names.all fun name => (json.get? name).isSome) = false := by
    rw [← Bool.not_eq_true, List.all_eq_true]
    exact h
  rw [whenMembers, hobj.hasMembers, hall]
  rfl

theorem whenMembers_of_not_object {α : Type} {name : Bytes} {names : List Bytes} {json : Json}
    {x : Decoder α} (hobj : ¬ json.IsObject) :
    (json.whenMembers (name :: names) x).run = .error .notObject := by
  cases json with
  | object ms => exact absurd ⟨ms, rfl⟩ hobj
  | _ => rfl

theorem returns_whenMembers {α : Type} {name : Bytes} {names : List Bytes} {json : Json}
    {x : Decoder α} {Shape : Json → Prop} (h : x.run.Returns ↔ Shape json) :
    (json.whenMembers (name :: names) x).run.Returns ↔ Readable (name :: names) Shape json := by
  by_cases hobj : json.IsObject
  · rw [Readable, and_iff_right hobj]
    by_cases hmem : json.Members (name :: names)
    · rw [whenMembers_of_members hobj hmem, h]
      exact ⟨fun hx _ => hx, fun hx => hx hmem⟩
    · rw [whenMembers_of_not_members hobj hmem]
      exact iff_of_true (Except.returns_ok _) fun hc => absurd hc hmem
  · rw [whenMembers_of_not_object hobj]
    exact iff_of_false (Except.not_returns_error _) fun hc => hobj hc.1

theorem gives_whenMembers {α : Type} {name : Bytes} {names : List Bytes} {json : Json}
    {x : Decoder α} {Shape : Json → Prop} (h : x.run.Gives ↔ Shape json)
    (hshape : Shape json → json.Members (name :: names)) :
    (json.whenMembers (name :: names) x).run.Gives ↔ Shape json := by
  by_cases hobj : json.IsObject
  · by_cases hmem : json.Members (name :: names)
    · rw [whenMembers_of_members hobj hmem, h]
    · rw [whenMembers_of_not_members hobj hmem]
      exact iff_of_false Except.not_gives_none fun hc => hmem (hshape hc)
  · rw [whenMembers_of_not_object hobj]
    refine iff_of_false (fun hc => Except.not_returns_error _ hc.returns) fun hc => ?_
    have hmem := hshape hc name List.mem_cons_self
    cases json with
    | object ms => exact hobj ⟨ms, rfl⟩
    | _ => cases hmem

/-- `FindMember`, a look at its result and an accessor ask for one member. -/
theorem memberOf_read_eq {α β : Type} (name : Bytes) (decode : Json → Except Fault α)
    (g : α → Decoder β) (json : Json) :
    (json.memberOf name >>= fun it => .read (decode it) >>= g) =
      json.whenMembers [name] (.read (json.requiredMember name decode) >>= g) := by
  by_cases hobj : json.IsObject
  · cases h : json.get? name with
    | none =>
      rw [whenMembers, memberOf, hobj.hasMembers, hobj.findMember, List.all_cons, h]
      rfl
    | some value =>
      rw [whenMembers, memberOf, hobj.hasMembers, hobj.findMember, requiredMember,
        index_of_get? h, List.all_cons, h]
      rfl
  · cases json with
    | object ms => exact absurd ⟨ms, rfl⟩ hobj
    | _ => rfl

theorem returns_memberOf_read {α β : Type} {name : Bytes} {decode : Json → Except Fault α}
    {g : α → Decoder β} {json : Json} {P Shape : Json → Prop} {Q : Prop}
    (hdecode : ∀ v, (decode v).Returns ↔ P v) (hg : ∀ a, (g a).run.Returns ↔ Q)
    (hshape : Shape json ↔ Required name P json ∧ Q) :
    (json.memberOf name >>= fun it => .read (decode it) >>= g).run.Returns ↔
      Readable [name] Shape json := by
  rw [memberOf_read_eq]
  apply returns_whenMembers
  rw [hshape, ← returns_requiredMember hdecode]
  exact Except.returns_run_lift_bind hg

theorem gives_memberOf_read {α β : Type} {name : Bytes} {decode : Json → Except Fault α}
    {g : α → Decoder β} {json : Json} {P Shape : Json → Prop} {Q : Prop}
    (hdecode : ∀ v, (decode v).Returns ↔ P v) (hg : ∀ a, (g a).run.Gives ↔ Q)
    (hshape : Shape json ↔ Required name P json ∧ Q) :
    (json.memberOf name >>= fun it => .read (decode it) >>= g).run.Gives ↔ Shape json := by
  rw [memberOf_read_eq]
  apply gives_whenMembers
  · rw [hshape, ← returns_requiredMember hdecode]
    exact Except.gives_run_lift_bind hg
  · intro h
    rw [Members, List.forall_mem_singleton]
    exact (hshape.mp h).1.members

/-- `operator[]` with a member name, and a decoder on what it returns. -/
def setFrom {α : Type} (name : Bytes) (set : Json → Decoder α) (json : Json) : Decoder α := do
  set (← Decoder.read (json.index name))

theorem returns_setFrom {α : Type} {name : Bytes} {set : Json → Decoder α} {json : Json}
    {P : Json → Prop} (h : ∀ v, (set v).run.Returns ↔ P v) :
    (json.setFrom name set).run.Returns ↔ Required name P json := by
  rw [setFrom, Except.returns_run_bind, returns_read]
  constructor
  · intro hx
    obtain ⟨⟨value, hv⟩, hset⟩ := hx
    refine ⟨value, index_eq_ok.mp hv, (h value).mp (hset value ?_)⟩
    rw [hv]
    rfl
  · intro hx
    obtain ⟨value, hv, hP⟩ := hx
    refine ⟨⟨value, index_eq_ok.mpr hv⟩, fun v hread => ?_⟩
    rw [index_eq_ok.mpr hv] at hread
    cases hread
    exact (h value).mpr hP

theorem gives_setFrom {α : Type} {name : Bytes} {set : Json → Decoder α} {json : Json}
    {P : Json → Prop} (h : ∀ v, (set v).run.Gives ↔ P v) :
    (json.setFrom name set).run.Gives ↔ Required name P json := by
  rw [setFrom, Except.gives_run_bind]
  refine exists_congr fun value => and_congr ?_ (h value)
  rw [← index_eq_ok]
  cases json.index name with
  | error e => exact iff_of_false (fun hc => by cases hc) fun hc => by cases hc
  | ok v =>
    constructor
    · intro hc
      cases hc
      rfl
    · intro hc
      cases hc
      rfl

/-! ## The value a decoder gives -/

/-- The decoder reports success, and this is the value it has set. -/
def Decoder.Yields {α : Type} (x : Decoder α) (a : α) : Prop := x.run = .ok (some a)

theorem Decoder.Yields.unique {α : Type} {x : Decoder α} {a b : α} (ha : x.Yields a)
    (hb : x.Yields b) : a = b :=
  Option.some.inj (Except.ok.inj (ha.symm.trans hb))

theorem yields_pure {α : Type} (a : α) : (pure a : Decoder α).Yields a := rfl

theorem yields_read {α : Type} {x : Except Fault α} {a : α} :
    (Decoder.read x).Yields a ↔ x = .ok a := by
  cases x with
  | error e => exact iff_of_false (fun h => by cases h) fun h => by cases h
  | ok b =>
    constructor
    · intro h
      cases h
      rfl
    · intro h
      cases h
      rfl

theorem yields_bind {α β : Type} {x : Decoder α} {f : α → Decoder β} {b : β} :
    (x >>= f).Yields b ↔ ∃ a, x.Yields a ∧ (f a).Yields b := by
  refine Except.run_bind_eq_ok.trans ?_
  constructor
  · intro h
    exact h.resolve_left fun hnone => by cases hnone.2
  · intro h
    exact .inr h

theorem yields_memberOf_bind {α : Type} {name : Bytes} {json value : Json} {f : Json → Decoder α}
    {a : α} (h : json.get? name = some value) :
    (json.memberOf name >>= f).Yields a ↔ (f value).Yields a := by
  rw [yields_bind]
  constructor
  · intro hx
    obtain ⟨v, hv, hf⟩ := hx
    rw [memberOf_eq_ok.mp hv] at h
    cases h
    exact hf
  · intro hf
    exact ⟨value, memberOf_eq_ok.mpr h, hf⟩

theorem yields_read_bind {α β : Type} {x : Except Fault α} {f : α → Decoder β} {a : α} {b : β}
    (h : x = .ok a) : (Decoder.read x >>= f).Yields b ↔ (f a).Yields b := by
  rw [h]
  rfl

theorem Decoder.Yields.of_whenMembers {α : Type} {names : List Bytes} {json : Json} {x : Decoder α}
    {a : α} (h : (json.whenMembers names x).Yields a) : x.Yields a := by
  obtain ⟨b, _, hb⟩ := yields_bind.mp h
  cases b with
  | true => exact hb
  | false => cases hb

/-- The values of an encoded list are decoded in their order. -/
theorem yields_mapM {α β : Type} {encode : α → Json} {f : Json → Decoder β} {g : α → β}
    {l : List α} (h : ∀ a ∈ l, (f (encode a)).Yields (g a)) :
    ((l.map encode).mapM f).Yields (l.map g) := by
  induction l with
  | nil => exact yields_pure []
  | cons a l ih =>
    rw [List.map_cons, List.mapM_cons, yields_bind]
    refine ⟨g a, h a List.mem_cons_self, yields_bind.mpr ⟨l.map g, ?_, yields_pure _⟩⟩
    exact ih fun b hb => h b (List.mem_cons_of_mem a hb)

/-! ## Objects with optional members -/

/-- An object in which every member listed is absent, `null` or has its property. -/
def Record (members : List (Bytes × (Json → Prop))) (json : Json) : Prop :=
  json.IsObject ∧ ∀ m ∈ members, json.Member? m.1 m.2

theorem record_cons {json : Json} {name : Bytes} {P : Json → Prop}
    {members : List (Bytes × (Json → Prop))} :
    Record ((name, P) :: members) json ↔ json.Member? name P ∧ Record members json := by
  rw [Record, Record, List.forall_mem_cons]
  exact and_left_comm

theorem member?_congr {json : Json} {name : Bytes} {P Q : Json → Prop} (h : ∀ v, P v ↔ Q v) :
    json.Member? name P ↔ json.Member? name Q := by
  have hPQ : P = Q := funext fun v => propext (h v)
  rw [hPQ]

/-- A decoder of a record reads its first member, then the others. -/
theorem returns_record_cons {α β : Type} {json : Json} {name : Bytes} {P : Json → Prop}
    {members : List (Bytes × (Json → Prop))} {decode : Json → Except Fault α}
    {f : Option α → Except Fault β} (hdecode : ∀ v, (decode v).Returns ↔ P v)
    (hf : ∀ a, (f a).Returns ↔ Record members json) :
    (json.member? name decode >>= f).Returns ↔ Record ((name, P) :: members) json := by
  rw [Except.returns_bind_const hf, returns_member?, member?_congr hdecode, record_cons]
  constructor
  · intro h
    exact ⟨h.1.2, h.2⟩
  · intro h
    exact ⟨⟨h.2.1, h.1⟩, h.2⟩

theorem returns_record_last {α β : Type} {json : Json} {name : Bytes} {P : Json → Prop}
    {decode : Json → Except Fault α} {g : Option α → β}
    (hdecode : ∀ v, (decode v).Returns ↔ P v) :
    (json.member? name decode >>= fun a => pure (g a)).Returns ↔ Record [(name, P)] json := by
  have hpure : ∀ a, (pure (g a) : Except Fault β).Returns ↔ True := fun a => by simp
  rw [Except.returns_bind_const hpure, returns_member?, member?_congr hdecode, record_cons]
  constructor
  · intro h
    exact ⟨h.1.2, h.1.1, fun _ hm => absurd hm List.not_mem_nil⟩
  · intro h
    exact ⟨⟨h.2.1, h.1⟩, trivial⟩

end Json
