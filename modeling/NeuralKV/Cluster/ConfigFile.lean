import NeuralKV.Cluster.Config
import NeuralKV.Lib.Text

/-!
# Lines of the cluster config file

Model of `ParseLine` of `src/cluster/cluster_config.cpp`, for every text of a line.  The numbers of
a peer line are compared with their bounds; those of `node_id=` and `leader_id=` go through
`std::stoul` and a cast to `uint32_t`.

* `LineSays` — what a line says, with numbers of any size and without a parser: the `Directive` is
  told from the shape of the line.  `LineSays.unique`: it says one thing.
* `parseLine_ok_iff`, `parseLine_outOfRange_iff` — **when `ParseLine` takes a line**, with which
  effect, **and when it throws**.
-/

set_option autoImplicit false

namespace NeuralKV

open Text

/-! ## The parser -/

def kPeer : Bytes := ascii "peer"

def kNodeId : Bytes := ascii "node_id"

def kLeaderId : Bytes := ascii "leader_id"

/-- How loading fails: with an error, or by the `std::out_of_range` of `std::stoul`, which nothing
catches. -/
inductive LoadFailure where
  | status (status : Status)
  | outOfRange
  deriving DecidableEq, Repr

/-- `Status::Error(ErrorCode::kInvalidArgument, …)`. -/
def LoadFailure.malformed (message : String) : LoadFailure := .status ⟨.kInvalidArgument, message⟩

/-- `peer`, at the end of the line or before a blank. -/
def isPeerDirective (text : Bytes) : Bool :=
  kPeer.isPrefixOf text && (text.length == 4 || (text[4]?).any isSpace)

/-- `tokens >> directive >> id >> host >> port`, and what is left; `none` if `!tokens`. -/
def readPeer (long int : Int × Int) (line : Bytes) : Option (Int × Bytes × Int × Bytes) := do
  let (_, tokens) ← readWord line
  let (id, tokens) ← readInteger long tokens
  let (host, tokens) ← readWord tokens
  let (port, tokens) ← readInteger int tokens
  return (id, host, port, tokens)

/-- `long`. -/
def kLong : Int × Int := (-2 ^ 63, 2 ^ 63 - 1)

/-- `int`. -/
def kInt : Int × Int := (-2 ^ 31, 2 ^ 31 - 1)

/-- `ParseLine`, the branch of a peer line. -/
def parsePeer (rawLine line : Bytes) (config : ClusterConfig) : Except LoadFailure ClusterConfig :=
  match readPeer kLong kInt line with
  | some (id, host, port, []) =>
    if id ≤ 0 ∨ 0xFFFFFFFF < id ∨ port ≤ 0 ∨ 0xFFFF < port then
      .error (.malformed ("malformed peer line: " ++ shown rawLine))
    else
      .ok { config with
        peers := config.peers ++
          [{ nodeId := id.toNat % 2 ^ 32, host := host, port := port.toNat % 2 ^ 16 }] }
  | _ => .error (.malformed ("malformed peer line: " ++ shown rawLine))

/-- `std::stoul` of a string of digits. -/
def stoul (value : Bytes) : Except LoadFailure Nat :=
  if decimal value < 2 ^ 64 then .ok (decimal value) else .error .outOfRange

/-- `ParseLine`, after the number of a `key=value` line is known. -/
def assignKey (key : Bytes) (parsed : Nat) (config : ClusterConfig) :
    Except LoadFailure ClusterConfig :=
  if key = kNodeId then .ok { config with localNodeId := parsed }
  else if key = kLeaderId then .ok { config with leaderNodeId := parsed }
  else .error (.malformed ("unknown config key: " ++ shown key))

/-- `ParseLine`, the branch of a `key=value` line.  `std::stoul` comes before the key is looked
at. -/
def parseAssignment (rawLine line : Bytes) (config : ClusterConfig) :
    Except LoadFailure ClusterConfig :=
  match line.dropWhile (· != 61) with
  | [] => .error (.malformed ("unrecognized config line: " ++ shown rawLine))
  | _ :: after =>
    let key := trim (line.takeWhile (· != 61))
    let value := trim after
    if value = [] ∨ value.all isDigit = false then
      .error (.malformed ("malformed value in line: " ++ shown rawLine))
    else
      match stoul value with
      | .error failure => .error failure
      | .ok parsed => assignKey key (parsed % 2 ^ 32) config

/-- `ParseLine`. -/
def parseLine (rawLine : Bytes) (config : ClusterConfig) : Except LoadFailure ClusterConfig :=
  let line := trim rawLine
  if line = [] ∨ line.head? = some 35 then .ok config
  else if isPeerDirective line then parsePeer rawLine line config
  else parseAssignment rawLine line config

/-! ## What the file says -/

/-- What a line can write down; numbers are of any size. -/
inductive Directive where
  | nothing
  | peer (id : Int) (host : Bytes) (port : Int)
  | assign (key : Bytes) (n : Nat)
  deriving DecidableEq, Repr

/-- `<id> <host> <port>` behind `peer`.  The id ends where its digits end, before a blank or not. -/
def PeerFields (rest : Bytes) (id : Int) (host : Bytes) (port : Int) : Prop :=
  ∃ gap₁ a gap₂ gap₃ b, rest = gap₁ ++ (a ++ (gap₂ ++ (host ++ (gap₃ ++ b)))) ∧
    (Blank gap₁ ∧ gap₁ ≠ []) ∧ Numeral a id ∧ (Blank gap₂ ∧ Stops isDigit (gap₂ ++ host)) ∧
    Word host ∧ (Blank gap₃ ∧ gap₃ ≠ []) ∧ Numeral b port

/-- **What a line says.** -/
inductive LineSays (line : Bytes) : Directive → Prop
  | blank (h : Padded line []) : LineSays line .nothing
  | comment {text : Bytes} (h : Padded line (35 :: text)) : LineSays line .nothing
  | peer {rest host : Bytes} {id port : Int} (h : Padded line (kPeer ++ rest))
      (hfields : PeerFields rest id host port) : LineSays line (.peer id host port)
  | assign {before after key digits : Bytes} (h : Padded line (before ++ 61 :: after))
      (hfirst : ∀ c ∈ before, c ≠ 61) (hcomment : (before ++ 61 :: after).head? ≠ some 35)
      (hpeer : isPeerDirective (before ++ 61 :: after) = false) (hkey : Padded before key)
      (hvalue : Padded after digits) (hdigits : Digits digits) :
      LineSays line (.assign key (decimal digits))

namespace Directive

/-- Its numbers fit the fields that they are for. -/
def Fits : Directive → Prop
  | .nothing => True
  | .peer id _ port => (0 < id ∧ id ≤ 0xFFFFFFFF) ∧ 0 < port ∧ port ≤ 0xFFFF
  | .assign _ n => n ≤ 0xFFFFFFFF

instance (d : Directive) : Decidable d.Fits := by
  cases d <;> unfold Fits <;> infer_instance

/-- `ParseLine` takes it: the numbers of a peer are in range, and a number is for one of the two
known keys and within `unsigned long`. -/
def Accepted : Directive → Prop
  | .nothing => True
  | .peer id host port => (Directive.peer id host port).Fits
  | .assign key n => n < 2 ^ 64 ∧ (key = kNodeId ∨ key = kLeaderId)

/-- Its effect on the configuration. -/
def enter (config : ClusterConfig) : Directive → ClusterConfig
  | .nothing => config
  | .peer id host port =>
    { config with peers := config.peers ++ [⟨id.toNat % 2 ^ 32, host, port.toNat % 2 ^ 16⟩] }
  | .assign key n =>
    if key = kNodeId then { config with localNodeId := n % 2 ^ 32 }
    else if key = kLeaderId then { config with leaderNodeId := n % 2 ^ 32 }
    else config

end Directive

/-! ## Peer lines -/

theorem isPeerDirective_iff {line : Bytes} :
    isPeerDirective line = true ↔
      ∃ rest, line = kPeer ++ rest ∧ WordEnds rest := by
  unfold isPeerDirective
  rw [Bool.and_eq_true, List.isPrefixOf_iff_prefix]
  constructor
  · rintro ⟨⟨rest, rfl⟩, hend⟩
    refine ⟨rest, rfl, ?_⟩
    cases rest with
    | nil => exact stops_nil
    | cons c rest =>
      refine stops_cons.mpr ?_
      simpa [kPeer, ascii] using hend
  · rintro ⟨rest, rfl, hstop⟩
    refine ⟨List.prefix_append _ _, ?_⟩
    cases rest with
    | nil => rfl
    | cons c rest =>
      have hc := stops_cons.mp hstop
      simpa [kPeer, ascii] using hc

theorem readWord_kPeer {rest : Bytes} (hstop : WordEnds rest) :
    readWord (kPeer ++ rest) = some (kPeer, rest) :=
  readWord_iff.mpr ⟨⟨by decide +kernel, by decide +kernel⟩, hstop, [], by rintro c ⟨⟩, rfl⟩

/-- The reads that follow the directive, one after another. -/
theorem readPeer_eq_some {long int : Int × Int} {rest host : Bytes} {id port : Int}
    (hstop : WordEnds rest) :
    readPeer long int (kPeer ++ rest) = some (id, host, port, []) ↔
      ∃ r₁ r₂, readInteger long rest = some (id, r₁) ∧ readWord r₁ = some (host, r₂) ∧
        readInteger int r₂ = some (port, []) := by
  unfold readPeer
  rw [readWord_kPeer hstop]
  simp only [Option.bind_eq_bind, Option.bind_some]
  constructor
  · intro h
    obtain ⟨⟨id', r₁⟩, hid, h⟩ := Option.bind_eq_some_iff.mp h
    obtain ⟨⟨host', r₂⟩, hhost, h⟩ := Option.bind_eq_some_iff.mp h
    obtain ⟨⟨port', r₃⟩, hport, h⟩ := Option.bind_eq_some_iff.mp h
    cases h
    exact ⟨r₁, r₂, hid, hhost, hport⟩
  · rintro ⟨r₁, r₂, hid, hhost, hport⟩
    simp only [Option.bind_some, hid, hhost, hport]
    rfl

/-- **What the stream reads from a peer line.** -/
theorem readPeer_iff {long int : Int × Int} {rest host : Bytes} {id port : Int}
    (hstop : WordEnds rest) :
    readPeer long int (kPeer ++ rest) = some (id, host, port, []) ↔
      PeerFields rest id host port ∧ (long.1 ≤ id ∧ id ≤ long.2) ∧
        (int.1 ≤ port ∧ port ≤ int.2) := by
  rw [readPeer_eq_some hstop]
  constructor
  · rintro ⟨r₁, r₂, hid, hhost, hport⟩
    obtain ⟨hlong, hend, gap₁, a, hgap₁, ha, rfl⟩ := readInteger_iff.mp hid
    obtain ⟨hword, hblank, gap₂, hgap₂, rfl⟩ := readWord_iff.mp hhost
    obtain ⟨hint, _, gap₃, b, hgap₃, hb, rfl⟩ := readInteger_iff.mp hport
    refine ⟨⟨gap₁, a, gap₂, gap₃, b, by rw [List.append_nil], ⟨hgap₁, ?_⟩, ha, ⟨hgap₂, ?_⟩, hword,
      ⟨hgap₃, ?_⟩, hb⟩, hlong, hint⟩
    · exact gap_ne_nil ha.trimmed.1 ha.trimmed.2.1 hstop
    · rw [← List.append_assoc] at hend
      exact (stops_append_iff (List.append_ne_nil_of_right_ne_nil _ hword.1)).mp hend
    · exact gap_ne_nil hb.trimmed.1 hb.trimmed.2.1 hblank
  · rintro ⟨⟨gap₁, a, gap₂, gap₃, b, rfl, ⟨hgap₁, _⟩, ha, ⟨hgap₂, hend⟩, hword, ⟨hgap₃, hne₃⟩, hb⟩,
      hlong, hint⟩
    refine ⟨gap₂ ++ (host ++ (gap₃ ++ b)), gap₃ ++ b, readInteger_iff.mpr ?_,
      readWord_iff.mpr ?_, readInteger_iff.mpr ?_⟩
    · refine ⟨hlong, ?_, gap₁, a, hgap₁, ha, rfl⟩
      rw [← List.append_assoc]
      exact (stops_append_iff (List.append_ne_nil_of_right_ne_nil _ hword.1)).mpr hend
    · exact ⟨hword, wordEnds_of_blank hgap₃ hne₃, gap₂, hgap₂, rfl⟩
    · exact ⟨hint, stops_nil, gap₃, b, hgap₃, hb, by rw [List.append_nil]⟩

theorem PeerFields.stops {rest host : Bytes} {id port : Int} (h : PeerFields rest id host port) :
    WordEnds rest := by
  obtain ⟨gap₁, a, gap₂, gap₃, b, rfl, ⟨hgap₁, hne⟩, _⟩ := h
  exact wordEnds_of_blank hgap₁ hne

/-- A peer line has one reading: in a range that both fit, the stream reads both. -/
theorem PeerFields.unique {rest host host' : Bytes} {id port id' port' : Int}
    (h : PeerFields rest id host port) (h' : PeerFields rest id' host' port') :
    id = id' ∧ host = host' ∧ port = port' := by
  have hreads : ∀ {i q : Int} {w : Bytes}, PeerFields rest i w q →
      (min id id' ≤ i ∧ i ≤ max id id') → (min port port' ≤ q ∧ q ≤ max port port') →
        readPeer (min id id', max id id') (min port port', max port port') (kPeer ++ rest) =
          some (i, w, q, []) :=
    fun hf hi hq => (readPeer_iff h.stops).mpr ⟨hf, hi, hq⟩
  have hread := hreads h ⟨min_le_left _ _, le_max_left _ _⟩ ⟨min_le_left _ _, le_max_left _ _⟩
  rw [hreads h' ⟨min_le_right _ _, le_max_right _ _⟩ ⟨min_le_right _ _, le_max_right _ _⟩] at hread
  cases hread
  exact ⟨rfl, rfl, rfl⟩

/-- **`ParseLine` accepts a peer line if its numbers fit.** -/
theorem parsePeer_ok_iff {rawLine rest : Bytes} {config config' : ClusterConfig}
    (hstop : WordEnds rest) :
    parsePeer rawLine (kPeer ++ rest) config = .ok config' ↔
      ∃ id host port, PeerFields rest id host port ∧ (Directive.peer id host port).Accepted ∧
        config' = (Directive.peer id host port).enter config := by
  have hfits : ∀ {id port : Int} {host : Bytes}, (Directive.peer id host port).Accepted ↔
      ¬ (id ≤ 0 ∨ 0xFFFFFFFF < id ∨ port ≤ 0 ∨ 0xFFFF < port) := by
    intro id port host
    unfold Directive.Accepted Directive.Fits
    omega
  constructor
  · intro h
    unfold parsePeer at h
    split at h
    · rename_i id host port hread
      split at h
      · cases h
      · rename_i hrange
        cases h
        exact ⟨id, host, port, ((readPeer_iff hstop).mp hread).1, hfits.mpr hrange, rfl⟩
    · cases h
  · rintro ⟨id, host, port, hfields, hacc, rfl⟩
    have hread : readPeer kLong kInt (kPeer ++ rest) = some (id, host, port, []) := by
      refine (readPeer_iff hstop).mpr ⟨hfields, ?_⟩
      unfold Directive.Accepted Directive.Fits at hacc
      unfold kLong kInt
      omega
    unfold parsePeer
    rw [hread]
    exact if_neg (hfits.mp hacc)

theorem parsePeer_error {rawLine line : Bytes} {config : ClusterConfig} {failure : LoadFailure}
    (h : parsePeer rawLine line config = .error failure) :
    failure = .malformed ("malformed peer line: " ++ shown rawLine) := by
  unfold parsePeer at h
  split at h
  · split at h
    · cases h
      rfl
    · cases h
  · cases h
    rfl

/-! ## `key=value` lines -/

/-- A line with its first `=` found, and the number behind it read. -/
theorem parseAssignment_eq {rawLine before after key digits : Bytes} (config : ClusterConfig)
    (hfirst : ∀ c ∈ before, c ≠ 61) (hkey : Padded before key) (hvalue : Padded after digits)
    (hdigits : Digits digits) :
    parseAssignment rawLine (before ++ 61 :: after) config =
      if decimal digits < 2 ^ 64 then assignKey key (decimal digits % 2 ^ 32) config
      else .error .outOfRange := by
  have hbefore : ∀ c ∈ before, (c != 61) = true := fun c hc => bne_iff_ne.mpr (hfirst c hc)
  have hstop : Stops (fun c => c != 61) (61 :: after) := stops_cons.mpr rfl
  have hall : ¬ (digits = [] ∨ digits.all isDigit = false) := by
    rw [not_or, Bool.not_eq_false, List.all_eq_true]
    exact hdigits
  unfold parseAssignment
  rw [dropWhile_split hbefore hstop, takeWhile_split hbefore hstop]
  simp only [trim_eq_iff.mpr hkey, trim_eq_iff.mpr hvalue, if_neg hall, stoul]
  split
  · rename_i hlong
    split at hlong
    · cases hlong
    · rename_i hle
      cases hlong
      rw [if_neg hle]
  · rename_i hparsed
    split at hparsed
    · rename_i hlt
      cases hparsed
      rw [if_pos hlt]
    · cases hparsed

/-- Any other line is malformed. -/
theorem parseAssignment_cases (rawLine line : Bytes) (config : ClusterConfig) :
    (∃ before after key digits, line = before ++ 61 :: after ∧ (∀ c ∈ before, c ≠ 61) ∧
        Padded before key ∧ Padded after digits ∧ Digits digits) ∨
      ∃ message, parseAssignment rawLine line config = .error (.malformed message) := by
  obtain ⟨hline, hbefore, hstop⟩ :=
    (split_iff (p := fun c : UInt8 => c != 61) (l := line)).mp ⟨rfl, rfl⟩
  unfold parseAssignment
  cases hafter : line.dropWhile (· != 61) with
  | nil => exact Or.inr ⟨_, rfl⟩
  | cons c after =>
    rw [hafter] at hline hstop
    have hc : c = 61 := by simpa using stops_cons.mp hstop
    subst hc
    by_cases hall : trim after = [] ∨ (trim after).all isDigit = false
    · simp only [if_pos hall]
      exact Or.inr ⟨_, rfl⟩
    · rw [not_or, Bool.not_eq_false, List.all_eq_true] at hall
      refine Or.inl ⟨_, after, _, _, hline, ?_, trim_eq_iff.mp rfl, trim_eq_iff.mp rfl, hall⟩
      intro c hc
      exact bne_iff_ne.mp (hbefore c hc)

theorem kLeaderId_ne_kNodeId : kLeaderId ≠ kNodeId := by decide +kernel

theorem enter_nodeId (config : ClusterConfig) (n : Nat) :
    (Directive.assign kNodeId n).enter config = { config with localNodeId := n % 2 ^ 32 } := by
  rw [Directive.enter, if_pos rfl]

theorem enter_leaderId (config : ClusterConfig) (n : Nat) :
    (Directive.assign kLeaderId n).enter config = { config with leaderNodeId := n % 2 ^ 32 } := by
  rw [Directive.enter, if_neg kLeaderId_ne_kNodeId, if_pos rfl]

theorem assignKey_ok_iff {key : Bytes} {n : Nat} {config config' : ClusterConfig} :
    assignKey key (n % 2 ^ 32) config = .ok config' ↔
      (key = kNodeId ∨ key = kLeaderId) ∧ config' = (Directive.assign key n).enter config := by
  unfold assignKey
  constructor
  · intro h
    split at h
    · rename_i hkey
      subst hkey
      cases h
      exact ⟨Or.inl rfl, (enter_nodeId config n).symm⟩
    · split at h
      · rename_i hkey
        subst hkey
        cases h
        exact ⟨Or.inr rfl, (enter_leaderId config n).symm⟩
      · cases h
  · rintro ⟨rfl | rfl, rfl⟩
    · rw [if_pos rfl, enter_nodeId]
    · rw [if_neg kLeaderId_ne_kNodeId, if_pos rfl, enter_leaderId]

theorem assignKey_error {key : Bytes} {n : Nat} {config : ClusterConfig} {failure : LoadFailure}
    (h : assignKey key n config = .error failure) :
    failure = .malformed ("unknown config key: " ++ shown key) := by
  unfold assignKey at h
  split at h
  · cases h
  · split at h
    · cases h
    · cases h
      rfl

/-! ## One line -/

/-- The first `=` of a line is in one place. -/
theorem first_eq_unique {before after before' after' : Bytes} (h : ∀ c ∈ before, c ≠ 61)
    (h' : ∀ c ∈ before', c ≠ 61) (heq : before ++ 61 :: after = before' ++ 61 :: after') :
    before = before' ∧ after = after' := by
  have hstop : ∀ t : Bytes, Stops (fun c => c != 61) (61 :: t) := fun _ => stops_cons.mpr rfl
  obtain ⟨hb, ha⟩ := split_iff.mpr ⟨heq, fun c hc => bne_iff_ne.mpr (h' c hc), hstop after'⟩
  have hbefore : ∀ c ∈ before, (c != 61) = true := fun c hc => bne_iff_ne.mpr (h c hc)
  rw [takeWhile_split hbefore (hstop after)] at hb
  rw [dropWhile_split hbefore (hstop after)] at ha
  exact ⟨hb, (List.cons.inj ha).2⟩

/-- A line has one meaning. -/
theorem LineSays.unique {line : Bytes} {d d' : Directive} (h : LineSays line d)
    (h' : LineSays line d') : d = d' := by
  cases h with
  | blank h =>
    cases h' with
    | blank _ => rfl
    | comment _ => rfl
    | peer h' _ => exact absurd (h.unique h') (by simp [kPeer, ascii])
    | assign h' => exact absurd (h.unique h') (by simp)
  | comment h =>
    cases h' with
    | blank _ => rfl
    | comment _ => rfl
    | peer h' _ => exact absurd (h.unique h') (by simp [kPeer, ascii])
    | assign h' _ hcomment =>
      rw [← h.unique h'] at hcomment
      exact absurd rfl hcomment
  | peer h hfields =>
    cases h' with
    | blank h' => exact absurd (h.unique h') (by simp [kPeer, ascii])
    | comment h' => exact absurd (h.unique h') (by simp [kPeer, ascii])
    | peer h' hfields' =>
      rw [List.append_cancel_left (h.unique h')] at hfields
      obtain ⟨rfl, rfl, rfl⟩ := hfields.unique hfields'
      rfl
    | assign h' _ _ hpeer =>
      rw [← h.unique h', isPeerDirective_iff.mpr ⟨_, rfl, hfields.stops⟩] at hpeer
      cases hpeer
  | assign h hfirst hcomment hpeer hkey hvalue _ =>
    cases h' with
    | blank h' => exact absurd (h.unique h') (by simp)
    | comment h' =>
      rw [h.unique h'] at hcomment
      exact absurd rfl hcomment
    | peer h' hfields' =>
      rw [h.unique h', isPeerDirective_iff.mpr ⟨_, rfl, hfields'.stops⟩] at hpeer
      cases hpeer
    | assign h' hfirst' _ _ hkey' hvalue' _ =>
      obtain ⟨rfl, rfl⟩ := first_eq_unique hfirst hfirst' (h.unique h')
      rw [hkey.unique hkey', hvalue.unique hvalue']

/-- `node_id=N`. -/
theorem says_nodeId {digits : Bytes} (hd : Digits digits) :
    LineSays (kNodeId ++ 61 :: digits) (.assign kNodeId (decimal digits)) := by
  have hpad : ∀ {s : Bytes}, Trimmed s → Padded s s := fun hs =>
    ⟨hs, [], [], by rintro c ⟨⟩, by rintro c ⟨⟩, by simp⟩
  have hlast : Stops isSpace (kNodeId ++ 61 :: digits).reverse := by
    rw [List.reverse_append, List.reverse_cons, List.append_assoc]
    exact (stops_append_iff (by simpa using hd.1)).mpr hd.stops_reverse
  refine .assign (hpad ⟨?_, hlast⟩) (by decide +kernel) ?_ ?_ (trim_eq_iff.mp (by decide +kernel))
    (hpad ⟨hd.stops, hd.stops_reverse⟩) hd
  · exact (stops_append_iff (by decide +kernel)).mpr (stops_cons.mpr (by decide))
  · simp [kNodeId, ascii]
  · simp [isPeerDirective, kPeer, kNodeId, ascii]

/-- `peer <id> <host> <port>`. -/
theorem says_peer {id host port : Bytes} (hid : Digits id) (hhost : Word host)
    (hport : Digits port) :
    LineSays (kPeer ++ ([32] ++ (id ++ ([32] ++ (host ++ ([32] ++ port))))))
      (.peer (decimal id) host (decimal port)) := by
  have hblank : Blank [32] := by simp [Blank, isSpace]
  refine .peer ⟨⟨?_, ?_⟩, [], [], by rintro c ⟨⟩, by rintro c ⟨⟩, by simp⟩
    ⟨[32], id, [32], [32], port, rfl, ⟨hblank, by simp⟩, .unsigned hid,
      ⟨hblank, stops_cons.mpr (by decide)⟩, hhost, ⟨hblank, by simp⟩, .unsigned hport⟩
  · exact (stops_append_iff (by decide +kernel)).mpr (stops_cons.mpr (by decide))
  · simp only [List.reverse_append, List.append_assoc]
    exact (stops_append_iff (by simpa using hport.1)).mpr hport.stops_reverse

theorem parseLine_comment {rawLine line : Bytes} (config : ClusterConfig) (h : Padded rawLine line)
    (hline : line = [] ∨ line.head? = some 35) : parseLine rawLine config = .ok config := by
  unfold parseLine
  rw [trim_eq_iff.mpr h]
  exact if_pos hline

theorem parseLine_peer {rawLine rest : Bytes} (config : ClusterConfig)
    (h : Padded rawLine (kPeer ++ rest)) (hstop : WordEnds rest) :
    parseLine rawLine config = parsePeer rawLine (kPeer ++ rest) config := by
  unfold parseLine
  simp only [trim_eq_iff.mpr h, isPeerDirective_iff.mpr ⟨rest, rfl, hstop⟩]
  exact if_neg (by simp [kPeer, ascii])

theorem LineSays.parseLine_assign {rawLine key : Bytes} {n : Nat} (config : ClusterConfig)
    (h : LineSays rawLine (.assign key n)) :
    parseLine rawLine config =
      if n < 2 ^ 64 then assignKey key (n % 2 ^ 32) config else .error .outOfRange := by
  obtain _ | _ | _ | ⟨hline, hfirst, hcomment, hpeer, hkey, hvalue, hdigits⟩ := h
  unfold parseLine
  simp only [trim_eq_iff.mpr hline, hpeer]
  rw [if_neg (not_or.mpr ⟨by simp, hcomment⟩)]
  exact parseAssignment_eq config hfirst hkey hvalue hdigits

/-- **The four kinds of lines.** -/
theorem parseLine_cases (rawLine : Bytes) (config : ClusterConfig) :
    (LineSays rawLine .nothing ∧ parseLine rawLine config = .ok config) ∨
      (∃ rest, Padded rawLine (kPeer ++ rest) ∧ WordEnds rest) ∨
      (∃ key n, LineSays rawLine (.assign key n)) ∨
      ∃ message, parseLine rawLine config = .error (.malformed message) := by
  have hpad : Padded rawLine (trim rawLine) := trim_eq_iff.mp rfl
  by_cases hskip : trim rawLine = [] ∨ (trim rawLine).head? = some 35
  · refine Or.inl ⟨?_, parseLine_comment config hpad hskip⟩
    rcases hskip with hnil | hhash
    · rw [hnil] at hpad
      exact .blank hpad
    · obtain ⟨text, htext⟩ := List.head?_eq_some_iff.mp hhash
      rw [htext] at hpad
      exact .comment hpad
  · cases hpeer : isPeerDirective (trim rawLine) with
    | true =>
      obtain ⟨rest, heq, hstop⟩ := isPeerDirective_iff.mp hpeer
      rw [heq] at hpad
      exact Or.inr (Or.inl ⟨rest, hpad, hstop⟩)
    | false =>
      refine Or.inr (Or.inr ?_)
      rcases parseAssignment_cases rawLine (trim rawLine) config with
        ⟨before, after, key, digits, heq, hfirst, hkey, hvalue, hdigits⟩ | ⟨message, hbad⟩
      · rw [heq] at hpad hpeer hskip
        exact Or.inl ⟨key, _, .assign hpad hfirst (not_or.mp hskip).2 hpeer hkey hvalue hdigits⟩
      · refine Or.inr ⟨message, ?_⟩
        unfold parseLine
        simp only [if_neg hskip, hpeer]
        exact hbad

/-- **When `ParseLine` returns `Ok`**, and what it has done. -/
theorem parseLine_ok_iff {rawLine : Bytes} {config config' : ClusterConfig} :
    parseLine rawLine config = .ok config' ↔
      ∃ d, LineSays rawLine d ∧ d.Accepted ∧ config' = d.enter config := by
  constructor
  · intro h
    rcases parseLine_cases rawLine config with
      ⟨hsaid, heq⟩ | ⟨rest, hpad, hstop⟩ | ⟨key, n, hsaid⟩ | ⟨message, hbad⟩
    · rw [heq] at h
      cases h
      exact ⟨.nothing, hsaid, trivial, rfl⟩
    · rw [parseLine_peer config hpad hstop] at h
      obtain ⟨id, host, port, hfields, hacc, rfl⟩ := (parsePeer_ok_iff hstop).mp h
      exact ⟨_, .peer hpad hfields, hacc, rfl⟩
    · rw [hsaid.parseLine_assign] at h
      split at h
      · rename_i hlt
        obtain ⟨hkey, rfl⟩ := assignKey_ok_iff.mp h
        exact ⟨_, hsaid, ⟨hlt, hkey⟩, rfl⟩
      · cases h
    · rw [hbad] at h
      cases h
  · rintro ⟨d, hsaid, hacc, rfl⟩
    cases hsaid with
    | blank hpad => exact parseLine_comment config hpad (Or.inl rfl)
    | comment hpad => exact parseLine_comment config hpad (Or.inr rfl)
    | peer hpad hfields =>
      rw [parseLine_peer config hpad hfields.stops]
      exact (parsePeer_ok_iff hfields.stops).mpr ⟨_, _, _, hfields, hacc, rfl⟩
    | assign hpad hfirst hcomment hpeer hkey hvalue hdigits =>
      rw [(LineSays.assign hpad hfirst hcomment hpeer hkey hvalue hdigits).parseLine_assign,
        if_pos hacc.1]
      exact assignKey_ok_iff.mpr ⟨hacc.2, rfl⟩

/-- How `ParseLine` fails. -/
theorem parseLine_error {rawLine : Bytes} {config : ClusterConfig} {failure : LoadFailure}
    (h : parseLine rawLine config = .error failure) :
    (∃ message, failure = .malformed message) ∨
      (failure = .outOfRange ∧ ∃ key n, LineSays rawLine (.assign key n) ∧ 2 ^ 64 ≤ n) := by
  rcases parseLine_cases rawLine config with
    ⟨_, heq⟩ | ⟨rest, hpad, hstop⟩ | ⟨key, n, hsaid⟩ | ⟨message, hbad⟩
  · rw [heq] at h
    cases h
  · rw [parseLine_peer config hpad hstop] at h
    exact Or.inl ⟨_, parsePeer_error h⟩
  · rw [hsaid.parseLine_assign] at h
    split at h
    · exact Or.inl ⟨_, assignKey_error h⟩
    · rename_i hle
      cases h
      exact Or.inr ⟨rfl, key, n, hsaid, Nat.not_lt.mp hle⟩
  · rw [hbad] at h
    cases h
    exact Or.inl ⟨message, rfl⟩

/-- **When `ParseLine` throws.** -/
theorem parseLine_outOfRange_iff {rawLine : Bytes} {config : ClusterConfig} :
    parseLine rawLine config = .error .outOfRange ↔
      ∃ key n, LineSays rawLine (.assign key n) ∧ 2 ^ 64 ≤ n := by
  constructor
  · intro h
    rcases parseLine_error h with ⟨_, hbad⟩ | ⟨_, hlong⟩
    · cases hbad
    · exact hlong
  · rintro ⟨key, n, hsaid, hle⟩
    rw [hsaid.parseLine_assign, if_neg (Nat.not_lt.mpr hle)]

theorem parseLine_status {rawLine : Bytes} {config : ClusterConfig} {status : Status}
    (h : parseLine rawLine config = .error (.status status)) : status.ok = false := by
  rcases parseLine_error h with ⟨_, hbad⟩ | ⟨hlong, _⟩
  · cases hbad
    rfl
  · cases hlong

end NeuralKV
