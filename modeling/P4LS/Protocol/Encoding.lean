import P4LS.Protocol.Params

/-!
# Encoding `didChange`

The params object a client sends for a list of changes, and what the decoders
make of it.  Every number and every optional member comes back as it was sent;
a text is read as a C string, and what follows a NUL in it is lost.
-/

namespace P4LS

open Bytes Json

/-! ## What a client sends -/

/-- An optional member, which is left out when there is no value. -/
def optionalField {α : Type} (name : Bytes) (encode : α → Json) (a? : Option α) :
    List (Bytes × Json) :=
  (a?.map fun a => (name, encode a)).toList

def encodeEvent (event : TextDocumentContentChangeEvent) : Json :=
  .object (optionalField (str "range") Range.getJson event.range ++
    optionalField (str "rangeLength") (fun n : UInt32 => .int n.toNat) event.rangeLength ++
    [(str "text", .string event.text)])

def encodeDocument (uri : Bytes) (version : Option Int) : Json :=
  .object ((str "uri", .string uri) :: optionalField (str "version") .int version)

def encodeDidChange (uri : Bytes) (version : Option Int)
    (events : List TextDocumentContentChangeEvent) : Json :=
  .object [(str "textDocument", encodeDocument uri version),
    (str "contentChanges", .array (events.map encodeEvent))]

/-! ## Numbers that fit

`GetInt` reads the numbers of the 32-bit `int`. -/

structure Position.InRange (p : Position) : Prop where
  line : p.line.toNat < 2 ^ 31
  character : p.character.toNat < 2 ^ 31

structure Range.InRange (r : Range) : Prop where
  start : r.start.InRange
  stop : r.stop.InRange

/-- The coordinates and the length of a change are below 2^31. -/
structure TextDocumentContentChangeEvent.InRange (event : TextDocumentContentChangeEvent) :
    Prop where
  range : ∀ r ∈ event.range, r.InRange
  rangeLength : ∀ n ∈ event.rangeLength, n.toNat < 2 ^ 31

/-- A version is a 32-bit `int`. -/
def VersionInRange (version : Option Int) : Prop := ∀ n ∈ version, -2 ^ 31 ≤ n ∧ n < 2 ^ 31

theorem getInt_toNat {n : UInt32} (h : n.toNat < 2 ^ 31) :
    (Json.int n.toNat).getInt = .ok (n.toNat : Int) :=
  getInt_eq_ok.mpr ⟨rfl, by omega, by omega⟩

theorem ofInt_toNat (n : UInt32) : UInt32.ofInt n.toNat = n := by
  have hmod : ((n.toNat : Int) % 2 ^ 32).toNat = n.toNat := by
    have hlt := n.toNat_lt
    omega
  rw [UInt32.ofInt, hmod, UInt32.ofNat_toNat]

theorem Position.ofJson_getJson {p : Position} (h : p.InRange) :
    Position.ofJson p.getJson = .ok p := by
  have hline : p.getJson.requiredMember (str "line") getInt = .ok (p.line.toNat : Int) :=
    requiredMember_eq_ok.mpr ⟨_, rfl, getInt_toNat h.line⟩
  have hcharacter : p.getJson.requiredMember (str "character") getInt =
      .ok (p.character.toNat : Int) :=
    requiredMember_eq_ok.mpr ⟨_, rfl, getInt_toNat h.character⟩
  refine Except.bind_eq_ok.mpr ⟨_, hline, Except.bind_eq_ok.mpr ⟨_, hcharacter, ?_⟩⟩
  rw [ofInt_toNat, ofInt_toNat]
  rfl

theorem Range.ofJson_getJson {r : Range} (h : r.InRange) : Range.ofJson r.getJson = .ok r := by
  have hstart : r.getJson.requiredMember (str "start") Position.ofJson = .ok r.start :=
    requiredMember_eq_ok.mpr ⟨_, rfl, Position.ofJson_getJson h.start⟩
  have hstop : r.getJson.requiredMember (str "end") Position.ofJson = .ok r.stop :=
    requiredMember_eq_ok.mpr ⟨_, rfl, Position.ofJson_getJson h.stop⟩
  exact Except.bind_eq_ok.mpr ⟨_, hstart, Except.bind_eq_ok.mpr ⟨_, hstop, rfl⟩⟩

/-! ## One change -/

theorem get?_event_text (event : TextDocumentContentChangeEvent) :
    (encodeEvent event).get? (str "text") = some (.string event.text) := by
  obtain ⟨range, rangeLength, text⟩ := event
  cases range <;> cases rangeLength <;> rfl

theorem get?_event_range (event : TextDocumentContentChangeEvent) :
    (encodeEvent event).get? (str "range") = event.range.map Range.getJson := by
  obtain ⟨range, rangeLength, text⟩ := event
  cases range <;> cases rangeLength <;> rfl

theorem get?_event_rangeLength (event : TextDocumentContentChangeEvent) :
    (encodeEvent event).get? (str "rangeLength") =
      event.rangeLength.map fun n : UInt32 => .int n.toNat := by
  obtain ⟨range, rangeLength, text⟩ := event
  cases range <;> cases rangeLength <;> rfl

/-- What arrives of a change: its text ends at the first NUL. -/
def TextDocumentContentChangeEvent.received (event : TextDocumentContentChangeEvent) :
    TextDocumentContentChangeEvent := { event with text := cstr event.text }

theorem set_encodeEvent {event : TextDocumentContentChangeEvent} (h : event.InRange) :
    (TextDocumentContentChangeEvent.set (encodeEvent event)).Yields event.received := by
  have hobj : (encodeEvent event).IsObject := ⟨_, rfl⟩
  have hrange : (encodeEvent event).find? (str "range") Range.ofJson = .ok event.range := by
    rw [find?_map hobj (get?_event_range event) fun r hr => Range.ofJson_getJson (h.range r hr),
      Option.map_id']
  have hlength : ((encodeEvent event).find? (str "rangeLength") fun it =>
      UInt32.ofInt <$> it.getInt) = .ok event.rangeLength := by
    rw [find?_map hobj (get?_event_rangeLength event) fun n hn => ?_, Option.map_id']
    rw [getInt_toNat (h.rangeLength n hn)]
    exact congrArg Except.ok (ofInt_toNat n)
  have htext : (Json.string event.text).getString = .ok (cstr event.text) := rfl
  rw [TextDocumentContentChangeEvent.set, yields_memberOf_bind (get?_event_text event),
    yields_read_bind htext]
  refine (yields_read_bind hrange).mpr ((yields_read_bind hlength).mpr ?_)
  exact yields_pure _

/-- A change arrives as it was sent exactly when there is no NUL in its text. -/
theorem received_eq_self_iff {event : TextDocumentContentChangeEvent} :
    event.received = event ↔ 0 ∉ event.text := by
  rw [← cstr_eq_self_iff]
  constructor
  · intro h
    exact congrArg TextDocumentContentChangeEvent.text h
  · intro h
    rw [TextDocumentContentChangeEvent.received, h]

/-! ## The whole message -/

theorem set_encodeDocument {uri : Bytes} {version : Option Int} (h : VersionInRange version) :
    (VersionedTextDocumentIdentifier.set (encodeDocument uri version)).Yields
      { uri := URI.setFromUri (cstr uri), version := version } := by
  have hobj : (encodeDocument uri version).IsObject := ⟨_, rfl⟩
  have huri : (Json.string uri).getString = .ok (cstr uri) := rfl
  have hget : (encodeDocument uri version).get? (str "version") = version.map .int := by
    cases version <;> rfl
  have hversion : (encodeDocument uri version).find? (str "version") getInt = .ok version := by
    rw [find?_map hobj hget fun n hn => getInt_eq_ok.mpr ⟨rfl, h n hn⟩, Option.map_id']
  have hmember : (encodeDocument uri version).get? (str "uri") = some (.string uri) := rfl
  refine yields_bind.mpr ⟨{ uri := URI.setFromUri (cstr uri) }, ?_,
    (yields_read_bind hversion).mpr (yields_pure _)⟩
  exact (yields_memberOf_bind hmember).mpr ((yields_read_bind huri).mpr (yields_pure _))

/-- The changes arrive in their order, each as it is received. -/
theorem set_encodeDidChange {uri : Bytes} {version : Option Int}
    {events : List TextDocumentContentChangeEvent} (hversion : VersionInRange version)
    (hevents : ∀ event ∈ events, event.InRange) :
    (ParamsTextDocumentDidChange.set (encodeDidChange uri version events)).Yields
      { textDocument := { uri := URI.setFromUri (cstr uri), version := version },
        contentChanges := events.map TextDocumentContentChangeEvent.received } := by
  have harray : (Json.array (events.map encodeEvent)).getArray = .ok (events.map encodeEvent) := rfl
  have hlist : ((events.map encodeEvent).mapM TextDocumentContentChangeEvent.set).Yields
      (events.map TextDocumentContentChangeEvent.received) :=
    yields_mapM fun event hevent => set_encodeEvent (hevents event hevent)
  have hdocument : (encodeDidChange uri version events).get? (str "textDocument") =
      some (encodeDocument uri version) := rfl
  have hchanges : (encodeDidChange uri version events).get? (str "contentChanges") =
      some (.array (events.map encodeEvent)) := rfl
  refine (yields_memberOf_bind hdocument).mpr
    (yields_bind.mpr ⟨_, set_encodeDocument hversion, ?_⟩)
  exact (yields_memberOf_bind hchanges).mpr
    ((yields_read_bind harray).mpr (yields_bind.mpr ⟨_, hlist, yields_pure _⟩))

/-- The decoder reports success, and the version and the list of changes it has
set are the ones that were encoded. -/
def RoundTrips (uri : Bytes) (version : Option Int)
    (events : List TextDocumentContentChangeEvent) : Prop :=
  ∃ params, (ParamsTextDocumentDidChange.set (encodeDidChange uri version events)).Yields params ∧
    params.textDocument.version = version ∧ params.contentChanges = events

/-- Decoding undoes encoding exactly for the lists of changes whose texts have
no NUL. -/
theorem roundTrips_iff {uri : Bytes} {version : Option Int}
    {events : List TextDocumentContentChangeEvent} (hversion : VersionInRange version)
    (hevents : ∀ event ∈ events, event.InRange) :
    RoundTrips uri version events ↔ ∀ event ∈ events, 0 ∉ event.text := by
  have hset : (ParamsTextDocumentDidChange.set (encodeDidChange uri version events)).Yields _ :=
    set_encodeDidChange hversion hevents
  have hmap : events.map TextDocumentContentChangeEvent.received = events ↔
      ∀ event ∈ events, 0 ∉ event.text := by
    have hself : events.map id = events := List.map_id events
    nth_rewrite 2 [← hself]
    rw [List.map_inj_left]
    exact forall₂_congr fun event _ => received_eq_self_iff
  rw [← hmap]
  constructor
  · intro h
    obtain ⟨params, hparams, _, hchanges⟩ := h
    rw [← hset.unique hparams] at hchanges
    exact hchanges
  · intro h
    exact ⟨_, hset, rfl, h⟩

/-- An insertion and a deletion, with the version of the document after them. -/
theorem roundTrips_iff_edits :
    RoundTrips (str "file:///a.p4") (some 2)
      [{ range := some ⟨⟨0, 4⟩, ⟨0, 4⟩⟩, rangeLength := some 0, text := str "x" },
        { range := some ⟨⟨1, 0⟩, ⟨2, 0⟩⟩, rangeLength := none, text := [] }] := by
  have hversion : VersionInRange (some 2) := by
    intro n hn
    cases hn
    decide
  refine (roundTrips_iff hversion fun event hevent => ?_).mpr (by decide)
  simp only [List.mem_cons, List.not_mem_nil, or_false] at hevent
  rcases hevent with rfl | rfl
  · refine ⟨fun r hr => ?_, fun n hn => ?_⟩
    · cases hr
      exact ⟨⟨by decide, by decide⟩, by decide, by decide⟩
    · cases hn
      decide
  · refine ⟨fun r hr => ?_, fun n hn => absurd hn (Option.not_mem_none n)⟩
    cases hr
    exact ⟨⟨by decide, by decide⟩, by decide, by decide⟩

/-- The text `a`, U+0000, `b` arrives as `a`. -/
theorem not_roundTrips_nul :
    ¬ ∀ uri version events, VersionInRange version →
      (∀ event ∈ events, event.InRange) → RoundTrips uri version events := by
  intro h
  have hversion : VersionInRange none := fun n hn => absurd hn (Option.not_mem_none n)
  have hevents : ∀ event ∈ [(⟨none, none, [ch 'a', 0, ch 'b']⟩ : TextDocumentContentChangeEvent)],
      event.InRange := by
    intro event hevent
    cases List.mem_singleton.mp hevent
    exact ⟨fun r hr => absurd hr (Option.not_mem_none r),
      fun n hn => absurd hn (Option.not_mem_none n)⟩
  obtain ⟨params, hparams, _, hchanges⟩ := h (str "file:///a.p4") none _ hversion hevents
  rw [← (set_encodeDidChange hversion hevents).unique hparams] at hchanges
  exact absurd hchanges (by decide)

end P4LS
