import P4LS.Library.Percent
import P4LS.Protocol.Params

/-!
# File URIs

A client names a document by the file URI of its path.  `set_from_uri` drops
the scheme and keeps the rest as it is, so the server files the document under
the encoded path.  The encoded path is the path exactly when the path has
nothing to encode.
-/

namespace P4LS

open Bytes Json

/-- The unreserved characters of RFC 3986. -/
def isUnreserved (c : UInt8) : Bool :=
  isalnum c || c == ch '-' || c == ch '.' || c == ch '_' || c == ch '~'

/-- A byte a client leaves alone when it builds a file URI. -/
def isPathByte (c : UInt8) : Bool := c == ch '/' || isUnreserved c

/-- The file URI of a path, as clients build it. -/
def fileUri (p : Bytes) : Bytes := str "file://" ++ Percent.encode isPathByte p

/-- An absolute POSIX path. -/
structure AbsolutePath (p : Bytes) : Prop where
  absolute : p.head? = some (ch '/')
  noNul : 0 ∉ p

/-! ## What the server makes of a file URI -/

/-- The scheme ends at the first `://`, whatever the path has in it. -/
theorem setFromUri_fileUri (p : Bytes) :
    URI.setFromUri (fileUri p) = { path := Percent.encode isPathByte p } := rfl

/-- Two documents are filed under one path only if they have one path. -/
theorem setFromUri_fileUri_inj {p q : Bytes} :
    URI.setFromUri (fileUri p) = URI.setFromUri (fileUri q) ↔ p = q := by
  rw [setFromUri_fileUri, setFromUri_fileUri, URI.mk.injEq, Percent.encode_inj (by decide)]

theorem escape_ne_zero (c : UInt8) : 0 ∉ Percent.escape c := by
  have hdigit : ∀ n, n < 16 → Percent.hexDigit n ≠ 0 := by decide
  have hlt : c.toNat < 256 := c.toNat_lt
  rw [Percent.escape]
  simp only [List.mem_cons, List.not_mem_nil, or_false, not_or]
  exact ⟨by decide, (hdigit _ (by omega)).symm, (hdigit _ (by omega)).symm⟩

/-- A file URI survives the trip through a C string. -/
theorem cstr_fileUri (p : Bytes) : cstr (fileUri p) = fileUri p := by
  apply cstr_eq_self
  intro h
  rcases List.mem_append.mp h with h | h
  · exact absurd h (by decide)
  · exact absurd (Percent.mem_of_mem_encode escape_ne_zero h).2 (by decide)

theorem getString_fileUri (p : Bytes) :
    (Json.string (fileUri p)).getString = .ok (fileUri p) := by
  rw [getString, cstr_fileUri]

/-- What a document is filed under when it is named by the file URI of a path. -/
def keyOf (p : Bytes) : URI := URI.setFromUri (fileUri p)

theorem identifier_fileUri {json : Json} {p : Bytes}
    (h : json.get? (str "uri") = some (.string (fileUri p))) :
    (TextDocumentIdentifier.set json).Yields { uri := keyOf p } := by
  rw [TextDocumentIdentifier.set, yields_memberOf_bind h, yields_read_bind (getString_fileUri p)]
  exact yields_pure _

/-- An opened document is filed under what its own `uri` gives. -/
theorem item_fileUri {json : Json} {p : Bytes} {item : TextDocumentItem}
    (h : json.get? (str "uri") = some (.string (fileUri p)))
    (hitem : (TextDocumentItem.set json).Yields item) : item.uri = keyOf p := by
  have hread := yields_read.mp hitem.of_whenMembers
  obtain ⟨uri, huri, hrest⟩ := Except.bind_eq_ok.mp hread
  obtain ⟨v, hv, hget⟩ := requiredMember_eq_ok.mp huri
  rw [h] at hv
  cases hv
  rw [getString_fileUri] at hget
  cases hget
  obtain ⟨languageId, _, hrest⟩ := Except.bind_eq_ok.mp hrest
  obtain ⟨version, _, hrest⟩ := Except.bind_eq_ok.mp hrest
  obtain ⟨text, _, hrest⟩ := Except.bind_eq_ok.mp hrest
  cases hrest
  rfl

theorem rootUriOf_fileUri {json : Json} {p : Bytes}
    (h : json.get? (str "rootUri") = some (.string (fileUri p))) :
    rootUriOf json = .ok (keyOf p) := by
  have hobj : json.IsObject := Required.isObject (P := IsString) ⟨_, h, _, rfl⟩
  rw [rootUriOf, member?_present hobj h (fun hc => by cases hc), getString_fileUri]
  rfl

/-! ## When the key is the path -/

/-- The path of a document is what `set_from_uri` leaves of its file URI, the
path of the document a message names by the URI, of the document `didOpen`
opens under it, and the root directory when `initialize` names it so. -/
structure RecoversPath (p : Bytes) : Prop where
  path : (URI.setFromUri (fileUri p)).path = p
  identifier : ∀ json, json.get? (str "uri") = some (.string (fileUri p)) →
    (TextDocumentIdentifier.set json).Yields { uri := { path := p } }
  item : ∀ json item, json.get? (str "uri") = some (.string (fileUri p)) →
    (TextDocumentItem.set json).Yields item → item.uri.path = p
  root : ∀ json, json.get? (str "rootUri") = some (.string (fileUri p)) →
    rootUriOf json = .ok { path := p }

theorem recoversPath_of_keyOf {p : Bytes} (h : keyOf p = { path := p }) : RecoversPath p where
  path := congrArg URI.path h
  identifier json hjson := by
    rw [← h]
    exact identifier_fileUri hjson
  item json item hjson hitem := by
    rw [item_fileUri hjson hitem, h]
  root json hjson := by
    rw [← h]
    exact rootUriOf_fileUri hjson

/-- The server works with the path of a document exactly when no byte of the
path is escaped in its URI. -/
theorem recoversPath_iff (p : Bytes) : RecoversPath p ↔ ∀ c ∈ p, isPathByte c = true := by
  rw [← Percent.encode_eq_self_iff]
  constructor
  · intro h
    exact h.path
  · intro h
    apply recoversPath_of_keyOf
    rw [keyOf, setFromUri_fileUri, h]

/-- A blank in a file name stays an escape. -/
theorem not_recoversPath_blank :
    AbsolutePath (str "/a b.p4") ∧
      (URI.setFromUri (fileUri (str "/a b.p4"))).path = str "/a%20b.p4" ∧
      ¬ RecoversPath (str "/a b.p4") := by
  have hkey : (URI.setFromUri (fileUri (str "/a b.p4"))).path = str "/a%20b.p4" := by decide
  refine ⟨⟨rfl, by decide⟩, hkey, fun h => ?_⟩
  exact absurd (hkey.symm.trans h.path) (by decide)

end P4LS
