import P4LS.Library.BinaryFormat
import P4LS.Slex.Lexer

/-!
# The saved tables

`save` writes the tables behind a signature, the version of the format and an id of its caller.
`load` takes the tables of a file that was saved with this id, and leaves the lexer alone
otherwise.  A `long` and a `size_t` have eight bytes, the others four.

`load` resizes its vectors to the counts that stand in the file, whatever they are, before it reads
the elements.  For a count that no vector has, or that there is no memory for, `resize` throws, and
nothing catches it.  For the tables the program makes itself there is taken to be memory enough.
-/

namespace P4LS.Slex

open BinaryFormat Istream

/-! ## The vectors -/

/-- The vectors `load` resizes: of tables, of rows and of node ids. -/
inductive TableVector where
  | dfa
  | transitionTable
  | nodeTable
  deriving DecidableEq

/-- The vectors that have been resized, each with its count. -/
abbrev Resized := List (TableVector × ℕ)

/-- What becomes of a request for more elements; it may depend on those before. -/
structure Memory where
  maxSize : TableVector → ℕ
  fails : Resized → TableVector → ℕ → Option AllocFailure
  maxSize_lt : ∀ vector, maxSize vector < 2 ^ 63
  lengthError_iff : ∀ resized vector count,
    fails resized vector count = some .lengthError ↔ maxSize vector < count

def Memory.resize (memory : Memory) (vector : TableVector) (resized : Resized) (count : ℕ) :
    Except AllocFailure Resized :=
  match memory.fails resized vector count with
  | some failure => .error failure
  | none => .ok (resized ++ [(vector, count)])

/-! ## The tables -/

/-- A node id as it is stored, `invalid_node` included. -/
def nodeIdValue : Option ℕ → ℕ
  | none => 2 ^ 32 - 1
  | some n => n

def nodeIdOf (v : ℕ) : Option ℕ := if v = 2 ^ 32 - 1 then none else some v

def writeNodeId (n : Option ℕ) : Bytes := leBytes 4 (nodeIdValue n)

def writeNodeTable (nodeTable : List (Option ℕ)) : Bytes :=
  leBytes 8 nodeTable.length ++ nodeTable.flatMap writeNodeId

def writeDfaTable (dfa : DfaTable) : Bytes :=
  (leBytes 8 dfa.transitionTable.length ++ dfa.transitionTable.flatMap writeNodeTable) ++
    writeNodeTable dfa.acceptanceIndex

abbrev TableReader (α : Type) := Reader AllocFailure Resized α

def readNodeId : TableReader (Option ℕ) := mapped nodeIdOf (number 4)

def readNodeTable (memory : Memory) : TableReader (List (Option ℕ)) :=
  counted 8 (memory.resize .nodeTable) readNodeId

def readDfaTable (memory : Memory) : TableReader DfaTable :=
  mapped (fun p => DfaTable.mk p.1 p.2)
    (pair (counted 8 (memory.resize .transitionTable) (readNodeTable memory))
      (readNodeTable memory))

def readTables (memory : Memory) : TableReader (List DfaTable) :=
  counted 8 (memory.resize .dfa) (readDfaTable memory)

/-- The node id is not that of `invalid_node`. -/
def StorableNodeId (n : Option ℕ) : Prop := ∀ k ∈ n, k < 2 ^ 32 - 1

def StorableNodeTable (nodeTable : List (Option ℕ)) : Prop :=
  nodeTable.length < 256 ^ 8 ∧ ∀ n ∈ nodeTable, StorableNodeId n

/-- The counts and the node ids fit in their bytes. -/
def DfaTable.Storable (dfa : DfaTable) : Prop :=
  (dfa.transitionTable.length < 256 ^ 8 ∧ ∀ row ∈ dfa.transitionTable, StorableNodeTable row) ∧
    StorableNodeTable dfa.acceptanceIndex

abbrev TableFormat (α : Type) := Format AllocFailure Resized α

def nodeIdFormat : TableFormat (Option ℕ) :=
  (Format.plain _ _ (· < 256 ^ 4) (leBytes 4)).mapped nodeIdValue StorableNodeId

def nodeTableFormat (memory : Memory) : TableFormat (List (Option ℕ)) :=
  nodeIdFormat.counted 8 (memory.resize .nodeTable)

def dfaTableFormat (memory : Memory) : TableFormat DfaTable :=
  (((nodeTableFormat memory).counted 8 (memory.resize .transitionTable)).pair
    (nodeTableFormat memory)).mapped (fun dfa => (dfa.transitionTable, dfa.acceptanceIndex))
      DfaTable.Storable

def tablesFormat (memory : Memory) : TableFormat (List DfaTable) :=
  (dfaTableFormat memory).counted 8 (memory.resize .dfa)

def writeTables (tables : List DfaTable) : Bytes :=
  leBytes 8 tables.length ++ tables.flatMap writeDfaTable

def StorableTables (tables : List DfaTable) : Prop :=
  tables.length < 256 ^ 8 ∧ ∀ dfa ∈ tables, dfa.Storable

theorem reads_nodeId : Reads nodeIdFormat readNodeId := by
  refine (Reads.number 4).mapped nodeIdOf nodeIdValue (fun n hn => ?_) fun v hv => ?_
  · cases n with
    | none => exact ⟨show 2 ^ 32 - 1 < 256 ^ 4 by decide, if_pos rfl⟩
    | some k =>
      have hk : k < 2 ^ 32 - 1 := hn k rfl
      exact ⟨show k < 256 ^ 4 by omega, if_neg (Nat.ne_of_lt hk)⟩
  · rw [nodeIdOf]
    split
    · rename_i heq
      exact ⟨fun k hk => absurd hk (Option.not_mem_none k), heq.symm⟩
    · rename_i hne
      refine ⟨fun k hk => ?_, rfl⟩
      cases hk
      change v < 256 ^ 4 at hv
      omega

theorem reads_nodeTable (memory : Memory) :
    Reads (nodeTableFormat memory) (readNodeTable memory) :=
  reads_nodeId.counted 8 _

theorem reads_dfaTable (memory : Memory) : Reads (dfaTableFormat memory) (readDfaTable memory) :=
  (((reads_nodeTable memory).counted 8 _).pair (reads_nodeTable memory)).mapped
    (fun p => DfaTable.mk p.1 p.2)
    (fun dfa : DfaTable => (dfa.transitionTable, dfa.acceptanceIndex))
    (fun _ hdfa => ⟨hdfa, rfl⟩) fun _ hp => ⟨hp, rfl⟩

theorem reads_tables (memory : Memory) : Reads (tablesFormat memory) (readTables memory) :=
  (reads_dfaTable memory).counted 8 _

/-- There is room for the vectors of some tables. -/
def Memory.Holds (memory : Memory) (tables : List DfaTable) : Prop :=
  ∃ resized, (tablesFormat memory).room [] tables resized

/-- A count in some bytes cannot be had: each one before it can, and stands before the right number
of elements. -/
def Memory.Throws (memory : Memory) (s : Bytes) (failure : AllocFailure) : Prop :=
  (tablesFormat memory).throws [] s failure

/-- Already the first count may be more than any vector has. -/
theorem Memory.throws_lengthError (memory : Memory) {count : ℕ} (hcount : 2 ^ 63 ≤ count)
    (hfits : count < 256 ^ 8) (rest : Bytes) :
    memory.Throws (leBytes 8 count ++ rest) .lengthError := by
  have hmax : memory.maxSize .dfa < count := Nat.lt_of_lt_of_le (memory.maxSize_lt _) hcount
  refine ⟨count, rest, hfits, rfl, .inl ?_⟩
  rw [resize, (memory.lengthError_iff _ _ _).mpr hmax]

/-! ## The file -/

/-- The `long` that some bytes hold. -/
def toLong (v : ℕ) : ℤ := if v < 2 ^ 63 then (v : ℤ) else (v : ℤ) - 2 ^ 64

def ofLong (v : ℤ) : ℕ := (v % 2 ^ 64).toNat

def slexSignature : ℤ := 0x58454C53

def slexVersion100 : ℤ := 0x0100

def slexLastKnownVersion : ℤ := slexVersion100

/-- The version without its minor part, which is the last byte. -/
def majorVersion (version : ℤ) : ℤ := version / 256 * 256

namespace Lexer

def save (lexer : Lexer) (uniqueId : ℤ) : Bytes :=
  leBytes 8 (ofLong slexSignature) ++ (leBytes 8 (ofLong slexVersion100) ++
    (leBytes 8 (ofLong uniqueId) ++ (leBytes 4 lexer.numStates ++
      (leBytes 8 lexer.dfa.length ++ lexer.dfa.flatMap writeDfaTable))))

/-- `none` is `false`, and the lexer is as it was. -/
def load (memory : Memory) (lexer : Lexer) (is : Istream) (uniqueId : ℤ) :
    Except AllocFailure (Option Lexer) :=
  match readNumber 8 is with
  | none => .ok none
  | some (signature, is) =>
    if toLong signature ≠ slexSignature then .ok none
    else
      match readNumber 8 is with
      | none => .ok none
      | some (version, is) =>
        if slexLastKnownVersion < majorVersion (toLong version) then .ok none
        else
          match readNumber 8 is with
          | none => .ok none
          | some (uid, is) =>
            if toLong uid ≠ uniqueId then .ok none
            else
              match readNumber 4 is with
              | none => .ok none
              | some (numStates, is) =>
                match readTables memory [] is with
                | .error failure => .error failure
                | .ok none => .ok none
                | .ok (some (dfa, _)) =>
                  .ok (some { lexer with dfa := dfa, numStates := numStates, compiledDfa := true })

/-! ## What is loaded -/

/-- What stands before the tables: the signature, the version, the id and the states. -/
abbrev Header := ((ℕ × ℕ) × ℕ) × ℕ

def writeHeader (header : Header) : Bytes :=
  leBytes 8 header.1.1.1 ++ leBytes 8 header.1.1.2 ++ leBytes 8 header.1.2 ++ leBytes 4 header.2

/-- The numbers fit in their bytes. -/
def StorableHeader (header : Header) : Prop :=
  ((header.1.1.1 < 256 ^ 8 ∧ header.1.1.2 < 256 ^ 8) ∧ header.1.2 < 256 ^ 8) ∧
    header.2 < 256 ^ 4

/-- The file was saved for this caller in a format that is known. -/
def Accepted (uniqueId : ℤ) (header : Header) : Prop :=
  toLong header.1.1.1 = slexSignature ∧
    majorVersion (toLong header.1.1.2) ≤ slexLastKnownVersion ∧ toLong header.1.2 = uniqueId

instance (uniqueId : ℤ) (header : Header) : Decidable (Accepted uniqueId header) :=
  inferInstanceAs (Decidable (_ ∧ _ ∧ _))

def headerFormat : TableFormat Header :=
  (((Format.plain _ _ (· < 256 ^ 8) (leBytes 8)).pair
    (Format.plain _ _ (· < 256 ^ 8) (leBytes 8))).pair
      (Format.plain _ _ (· < 256 ^ 8) (leBytes 8))).pair
        (Format.plain _ _ (· < 256 ^ 4) (leBytes 4))

def readHeader : TableReader Header :=
  pair (pair (pair (number 8) (number 8)) (number 8)) (number 4)

theorem reads_header : Reads headerFormat readHeader :=
  (((Reads.number 8).pair (Reads.number 8)).pair (Reads.number 8)).pair (Reads.number 4)

/-- A header has no vectors. -/
theorem readHeader_eq_some {header : Header} {resized : Resized} {s : Bytes} {is : Istream} :
    readHeader [] (ofBytes s) = .ok (some (header, resized, is)) ↔
      StorableHeader header ∧ resized = [] ∧
        ∃ rest, s = writeHeader header ++ rest ∧ is = ofBytes rest := by
  constructor
  · intro h
    obtain ⟨hheader, ⟨_, ⟨_, ⟨_, hone, htwo⟩, hthree⟩, hfour⟩, rest, hs, his⟩ :=
      reads_header.sound h
    exact ⟨hheader, hfour.trans (hthree.trans (htwo.trans hone)), rest, hs, his⟩
  · intro h
    obtain ⟨hheader, rfl, rest, rfl, rfl⟩ := h
    exact reads_header.complete hheader ⟨[], ⟨[], ⟨[], rfl, rfl⟩, rfl⟩, rfl⟩ rest

/-- The lexer with the tables of a file. -/
def withTables (lexer : Lexer) (numStates : ℕ) (tables : List DfaTable) : Lexer :=
  { lexer with dfa := tables, numStates := numStates, compiledDfa := true }

section

variable {memory : Memory} {lexer lexer' : Lexer} {uniqueId : ℤ} {s : Bytes}

/-- The numbers of the header, one after another. -/
theorem readHeader_eq (is : Istream) :
    readHeader [] is = .ok ((readNumber 8 is).bind fun signature =>
      (readNumber 8 signature.2).bind fun version => (readNumber 8 version.2).bind fun uid =>
        (readNumber 4 uid.2).map fun numStates =>
          ((((signature.1, version.1), uid.1), numStates.1), [], numStates.2)) := by
  have hnumber : ∀ (n : ℕ) (is : Istream), (number n [] is : Result AllocFailure Resized ℕ) =
      .ok ((readNumber n is).map fun p => (p.1, [], p.2)) := fun _ _ => rfl
  simp only [readHeader, pair, hnumber]
  rcases readNumber 8 is with _ | signature
  · rfl
  simp only [Option.map_some, Option.bind_some, next, hnumber]
  rcases readNumber 8 signature.2 with _ | version
  · rfl
  simp only [Option.map_some, Option.bind_some, hnumber]
  rcases readNumber 8 version.2 with _ | uid
  · rfl
  simp only [Option.map_some, Option.bind_some, hnumber]
  rcases readNumber 4 uid.2 with _ | numStates
  · rfl
  · rfl

/-- The checks between the readings refuse a header that is not accepted, and nothing else. -/
theorem load_eq (memory : Memory) (lexer : Lexer) (is : Istream) (uniqueId : ℤ) :
    lexer.load memory is uniqueId = match readHeader [] is with
      | .ok (some (header, _, is)) =>
        if Accepted uniqueId header then
          (readTables memory [] is).map fun result =>
            result.map fun tables => lexer.withTables header.2 tables.1
        else .ok none
      | _ => .ok none := by
  rw [readHeader_eq, load]
  rcases readNumber 8 is with _ | ⟨signature, is⟩
  · rfl
  simp only [Option.bind_some]
  rcases readNumber 8 is with _ | ⟨version, is⟩
  · exact ite_self _
  simp only [Option.bind_some]
  rcases readNumber 8 is with _ | ⟨uid, is⟩
  · simp
  simp only [Option.bind_some]
  rcases readNumber 4 is with _ | ⟨numStates, is⟩
  · simp
  simp only [Option.map_some, Accepted]
  by_cases hsignature : toLong signature = slexSignature
  · by_cases hversion : slexLastKnownVersion < majorVersion (toLong version)
    · simp [hversion, Int.not_le.mpr hversion]
    · by_cases huid : toLong uid = uniqueId
      · simp only [hsignature, hversion, huid, Int.not_lt.mp hversion, ne_eq, not_true_eq_false,
          if_false, and_self, if_true]
        rcases readTables memory [] is with failure | _ | ⟨dfa, resized, is⟩ <;> rfl
      · simp [hversion, huid]
  · simp [hsignature]

theorem load_of_header (memory : Memory) (lexer : Lexer) {header : Header}
    (hheader : StorableHeader header) (haccepted : Accepted uniqueId header) (rest : Bytes) :
    lexer.load memory (ofBytes (writeHeader header ++ rest)) uniqueId =
      (readTables memory [] (ofBytes rest)).map fun result =>
        result.map fun tables => lexer.withTables header.2 tables.1 := by
  have hread := readHeader_eq_some.mpr ⟨hheader, rfl, rest, rfl, rfl⟩
  rw [load_eq, hread]
  exact if_pos haccepted

theorem exists_header (h : lexer.load memory (ofBytes s) uniqueId ≠ .ok none) :
    ∃ header rest, s = writeHeader header ++ rest ∧ StorableHeader header ∧
      Accepted uniqueId header := by
  rw [load_eq] at h
  rcases hread : readHeader [] (ofBytes s) with failure | _ | ⟨header, resized, is⟩
  · rw [hread] at h
    exact absurd rfl h
  · rw [hread] at h
    exact absurd rfl h
  · obtain ⟨hheader, _, rest, hs, _⟩ := readHeader_eq_some.mp hread
    refine ⟨header, rest, hs, hheader, ?_⟩
    by_contra hrefused
    rw [hread] at h
    exact h (if_neg hrefused)

theorem load_eq_some :
    lexer.load memory (ofBytes s) uniqueId = .ok (some lexer') ↔ ∃ header tables rest,
      s = writeHeader header ++ (writeTables tables ++ rest) ∧ StorableHeader header ∧
      Accepted uniqueId header ∧ StorableTables tables ∧ memory.Holds tables ∧
      lexer' = lexer.withTables header.2 tables := by
  constructor
  · intro h
    obtain ⟨header, rest, rfl, hheader, haccepted⟩ := exists_header fun hnone => by
      rw [h] at hnone
      cases hnone
    rw [load_of_header memory lexer hheader haccepted] at h
    rcases hread : readTables memory [] (ofBytes rest) with failure | _ | ⟨tables, resized, is⟩
    · rw [hread] at h
      cases h
    · rw [hread] at h
      cases h
    · rw [hread] at h
      cases h
      obtain ⟨htables, hroom, rest', rfl, _⟩ := (reads_tables memory).sound hread
      exact ⟨header, tables, rest', rfl, hheader, haccepted, htables, ⟨resized, hroom⟩, rfl⟩
  · intro h
    obtain ⟨header, tables, rest, rfl, hheader, haccepted, htables, ⟨resized, hroom⟩, rfl⟩ := h
    have hread : readTables memory [] (ofBytes (writeTables tables ++ rest)) = _ :=
      (reads_tables memory).complete htables hroom rest
    rw [load_of_header memory lexer hheader haccepted, hread]
    rfl

theorem load_eq_error {failure : AllocFailure} :
    lexer.load memory (ofBytes s) uniqueId = .error failure ↔ ∃ header rest,
      s = writeHeader header ++ rest ∧ StorableHeader header ∧ Accepted uniqueId header ∧
      memory.Throws rest failure := by
  constructor
  · intro h
    obtain ⟨header, rest, rfl, hheader, haccepted⟩ := exists_header fun hnone => by
      rw [h] at hnone
      cases hnone
    refine ⟨header, rest, rfl, hheader, haccepted, (reads_tables memory).error_iff.mp ?_⟩
    rw [load_of_header memory lexer hheader haccepted] at h
    rcases hread : readTables memory [] (ofBytes rest) with failure' | _ | tables
    · rw [hread] at h
      cases h
      rfl
    · rw [hread] at h
      cases h
    · rw [hread] at h
      cases h
  · intro h
    obtain ⟨header, rest, rfl, hheader, haccepted, hthrows⟩ := h
    rw [load_of_header memory lexer hheader haccepted, (reads_tables memory).error_iff.mpr hthrows]
    rfl

end

theorem toLong_ofLong {v : ℤ} (h : -2 ^ 63 ≤ v ∧ v < 2 ^ 63) : toLong (ofLong v) = v := by
  rw [toLong, ofLong]
  omega

theorem ofLong_lt (v : ℤ) : ofLong v < 256 ^ 8 := by
  change (v % 2 ^ 64).toNat < 256 ^ 8
  omega

/-- What a lexer saves in front of its tables. -/
def header (lexer : Lexer) (uniqueId : ℤ) : Header :=
  (((ofLong slexSignature, ofLong slexVersion100), ofLong uniqueId), lexer.numStates)

theorem save_eq (lexer : Lexer) (uniqueId : ℤ) :
    lexer.save uniqueId = writeHeader (lexer.header uniqueId) ++ writeTables lexer.dfa := by
  simp only [save, writeHeader, writeTables, header, List.append_assoc]

/-- All that the lexer saves fits in its bytes. -/
structure Storable (lexer : Lexer) : Prop where
  numStates_lt : lexer.numStates < 2 ^ 32
  storable : StorableTables lexer.dfa

theorem Storable.header {lexer : Lexer} (h : lexer.Storable) (uniqueId : ℤ) :
    StorableHeader (lexer.header uniqueId) :=
  ⟨⟨⟨ofLong_lt slexSignature, ofLong_lt slexVersion100⟩, ofLong_lt uniqueId⟩, h.numStates_lt⟩

theorem accepted_header (lexer : Lexer) {uniqueId : ℤ}
    (hid : -2 ^ 63 ≤ uniqueId ∧ uniqueId < 2 ^ 63) (id : ℤ) :
    Accepted id (lexer.header uniqueId) ↔ uniqueId = id := by
  rw [Accepted, header, toLong_ofLong (by decide), toLong_ofLong (by decide), toLong_ofLong hid]
  exact ⟨fun h => h.2.2, fun h => ⟨rfl, by decide, h⟩⟩

/-- What is cut short is refused. -/
theorem load_short {memory : Memory} {header : Header} {tables : List DfaTable}
    (hheader : StorableHeader header) (htables : StorableTables tables)
    (hholds : memory.Holds tables) {s : Bytes}
    (hs : s <+: writeHeader header ++ writeTables tables)
    (hne : s ≠ writeHeader header ++ writeTables tables) (lexer : Lexer) (uniqueId : ℤ) :
    lexer.load memory (ofBytes s) uniqueId = .ok none := by
  obtain ⟨resized, hroom⟩ := hholds
  have hread : pair readHeader (readTables memory) [] (ofBytes s) = .ok none :=
    (reads_header.pair (reads_tables memory)).truncated (a := (header, tables))
      ⟨hheader, htables⟩ ⟨[], ⟨[], ⟨[], ⟨[], rfl, rfl⟩, rfl⟩, rfl⟩, hroom⟩ hs hne
  by_contra hload
  obtain ⟨header', rest, rfl, hheader', haccepted⟩ := exists_header hload
  have hfirst := readHeader_eq_some.mpr ⟨hheader', rfl, rest, rfl, rfl⟩
  rw [pair, hfirst] at hread
  rw [load_of_header memory lexer hheader' haccepted] at hload
  rcases hmore : readTables memory [] (ofBytes rest) with failure | _ | ⟨tables', resized', is⟩
  · simp only [next, hmore] at hread
    cases hread
  · rw [hmore] at hload
    exact hload rfl
  · simp only [next, hmore] at hread
    cases hread

/-- A file that was saved is loaded if it is whole and of the same caller, as long as there is room
for the tables of the lexer. -/
theorem load_of_saved {memory : Memory} {lexer : Lexer} (h : lexer.Storable)
    (hholds : memory.Holds lexer.dfa) {uniqueId : ℤ}
    (hid : -2 ^ 63 ≤ uniqueId ∧ uniqueId < 2 ^ 63) (other : Lexer) (id : ℤ) {s : Bytes}
    (hs : s <+: lexer.save uniqueId) :
    other.load memory (ofBytes s) id = .ok (if s = lexer.save uniqueId ∧ uniqueId = id then
      some { other with dfa := lexer.dfa, numStates := lexer.numStates, compiledDfa := true }
    else none) := by
  have hsave := save_eq lexer uniqueId
  rw [hsave] at hs ⊢
  by_cases hwhole : s = writeHeader (lexer.header uniqueId) ++ writeTables lexer.dfa
  · by_cases hsame : uniqueId = id
    · rw [if_pos ⟨hwhole, hsame⟩]
      refine load_eq_some.mpr ⟨lexer.header uniqueId, lexer.dfa, [], ?_, h.header uniqueId,
        (accepted_header lexer hid id).mpr hsame, h.storable, hholds, rfl⟩
      rw [List.append_nil, hwhole]
    · rw [if_neg fun hboth => hsame hboth.2]
      by_contra hload
      obtain ⟨header, rest, hs', hheader, haccepted⟩ := exists_header hload
      have hread := readHeader_eq_some.mpr ⟨hheader, rfl, rest, hs', rfl⟩
      have hread' := readHeader_eq_some.mpr ⟨h.header uniqueId, rfl, _, hwhole, rfl⟩
      rw [hread] at hread'
      cases hread'
      exact hsame ((accepted_header lexer hid id).mp haccepted)
  · rw [if_neg fun hboth => hwhole hboth.1]
    exact load_short (h.header uniqueId) h.storable hholds hs hwhole other id

/-- A header that is accepted and a count that no vector has. -/
theorem load_lengthError (memory : Memory) (lexer : Lexer) {header : Header} {uniqueId : ℤ}
    (hheader : StorableHeader header) (haccepted : Accepted uniqueId header) {count : ℕ}
    (hcount : 2 ^ 63 ≤ count) (hfits : count < 256 ^ 8) (rest : Bytes) :
    lexer.load memory (ofBytes (writeHeader header ++ (leBytes 8 count ++ rest))) uniqueId =
      .error .lengthError :=
  load_eq_error.mpr
    ⟨header, _, rfl, hheader, haccepted, memory.throws_lengthError hcount hfits rest⟩

/-- A file is loaded if it begins with a header that is accepted and with tables there is room for,
and the lexer then has these tables.  The call throws if behind such a header there is a count for
which no room can be made.  Every other file is refused. -/
theorem load_iff (memory : Memory) (lexer : Lexer) (s : Bytes) (uniqueId : ℤ) :
    (∀ lexer', lexer.load memory (ofBytes s) uniqueId = .ok (some lexer') ↔
      ∃ header tables rest, s = writeHeader header ++ (writeTables tables ++ rest) ∧
        StorableHeader header ∧ Accepted uniqueId header ∧ StorableTables tables ∧
        memory.Holds tables ∧ lexer' = lexer.withTables header.2 tables) ∧
    ∀ failure, lexer.load memory (ofBytes s) uniqueId = .error failure ↔
      ∃ header rest, s = writeHeader header ++ rest ∧ StorableHeader header ∧
        Accepted uniqueId header ∧ memory.Throws rest failure :=
  ⟨fun _ => load_eq_some, fun _ => load_eq_error⟩

end Lexer

end P4LS.Slex
