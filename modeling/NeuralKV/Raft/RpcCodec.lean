import NeuralKV.Persistence.WalCodec
import NeuralKV.Protocol.Codec
import NeuralKV.Raft.Node

/-!
# Bodies of the Raft RPCs

Model of `src/raft/rpc_codec.cpp`.  The encoders always succeed; the decoders read fields off the
body and refuse bytes that are left over.  `DecodeAppendEntriesRequest` reserves memory for as many
entries as the body announces before it reads the first one; whether there is memory for `n` entries
is a parameter (`reserves n`), and a `reserve` without it throws.

* `decodeRequestVoteRequest_iff`, `decodeAppendEntriesRequest_iff` — **a request body is accepted
  exactly if it is the encoding of the request it is decoded to**, one whose entries can be reserved.
* `decodeAppendEntriesRequest_badAlloc_iff` — when the decoder throws.
* `appendEntriesRequest_bijection_iff` — **the codec is a bijection between requests and accepted
  bodies, and rejects every proper prefix and extension of an encoding, exactly for requests whose
  entries can be reserved.**
* `announced_count_throws` — a body of 40 bytes that announces `2 ^ 32 - 1` entries is not rejected.
* `decodeReply_encodeReply` — replies come back; any byte but `0` is read as "yes".
* `write_fits_iff` — **which client writes fit into one replication RPC**: the body of
  `AppendEntries` has a longer header than a client request, under the same cap.
* `oversized_entry_never_sent` — no request carries an entry that is too long for one of its own.
-/

set_option autoImplicit false

namespace NeuralKV

open Framing Fields

/-- `Truncated`. -/
def truncated : Status := ⟨.kInvalidArgument, "truncated raft RPC body"⟩

/-- `!r.AtEnd()`. -/
def bodyEnd (message : String) (rest : Bytes) : Except Status Unit :=
  require ⟨.kInvalidArgument, "trailing bytes in " ++ message⟩ (rest = [])

/-- How a decoder fails: with an error, or by the `std::bad_alloc` of `reserve`, which nothing
catches. -/
inductive DecodeFailure where
  | status (status : Status)
  | badAlloc
  deriving DecidableEq, Repr

/-! ## RequestVote -/

/-- `EncodeRequestVoteRequest`. -/
def encodeRequestVoteRequest (req : RequestVoteRequest) : Bytes :=
  toBE 8 req.term ++ toBE 4 req.candidateId ++ toBE 8 req.lastLogIndex ++ toBE 8 req.lastLogTerm

/-- `DecodeRequestVoteRequest`. -/
def decodeRequestVoteRequest (body : Bytes) : Except Status RequestVoteRequest := do
  let (term, rest) ← number truncated 8 body
  let (candidateId, rest) ← number truncated 4 rest
  let (lastLogIndex, rest) ← number truncated 8 rest
  let (lastLogTerm, rest) ← number truncated 8 rest
  bodyEnd "RequestVote request" rest
  return { term, candidateId, lastLogIndex, lastLogTerm }

/-- A term and a flag, the layout of both replies. -/
def encodeReply (term : Nat) (flag : Bool) : Bytes := toBE 8 term ++ [if flag then 1 else 0]

def decodeReply (message : String) (body : Bytes) : Except Status (Nat × Bool) := do
  let (term, rest) ← number truncated 8 body
  let (flag, rest) ← byte truncated rest
  bodyEnd message rest
  return (term, flag != 0)

/-- `EncodeRequestVoteResponse`. -/
def encodeRequestVoteResponse (resp : RequestVoteResponse) : Bytes :=
  encodeReply resp.term resp.voteGranted

/-- `DecodeRequestVoteResponse`. -/
def decodeRequestVoteResponse (body : Bytes) : Except Status RequestVoteResponse := do
  let (term, voteGranted) ← decodeReply "RequestVote response" body
  return { term, voteGranted }

/-! ## AppendEntries -/

/-- One round of the loop of `EncodeAppendEntriesRequest`. -/
def encodeLogEntry (entry : LogEntry) : Bytes :=
  toBE 8 entry.term ++ toBE 8 entry.index ++ [entry.op.toByte] ++ toBE 4 entry.key.length ++
    entry.key ++ toBE 4 entry.value.length ++ entry.value

/-- `EncodeAppendEntriesRequest`. -/
def encodeAppendEntriesRequest (req : AppendEntriesRequest) : Bytes :=
  toBE 8 req.term ++ toBE 4 req.leaderId ++ toBE 8 req.prevLogIndex ++ toBE 8 req.prevLogTerm ++
    toBE 8 req.leaderCommit ++ toBE 4 req.entries.length ++ encodeAll encodeLogEntry req.entries

/-- One round of the loop of `DecodeAppendEntriesRequest`. -/
def decodeLogEntry (bytes : Bytes) : Except Status (LogEntry × Bytes) := do
  let (term, rest) ← number truncated 8 bytes
  let (index, rest) ← number truncated 8 rest
  let (opByte, rest) ← byte truncated rest
  let op ← known ⟨.kInvalidArgument, "unknown log entry op"⟩ WalOp.ofByte opByte
  let (key, rest) ← block truncated 4 rest
  let (value, rest) ← block truncated 4 rest
  return ({ term, index, op, key, value }, rest)

/-- `DecodeAppendEntriesRequest`; `reserves n` says whether `out.entries.reserve(n)` returns. -/
def decodeAppendEntriesRequest (reserves : Nat → Bool) (body : Bytes) :
    Except DecodeFailure AppendEntriesRequest := do
  let (term, rest) ← number (.status truncated) 8 body
  let (leaderId, rest) ← number (.status truncated) 4 rest
  let (prevLogIndex, rest) ← number (.status truncated) 8 rest
  let (prevLogTerm, rest) ← number (.status truncated) 8 rest
  let (leaderCommit, rest) ← number (.status truncated) 8 rest
  let (entryCount, rest) ← number (.status truncated) 4 rest
  require .badAlloc (reserves entryCount = true)
  let (entries, rest) ← (repeated decodeLogEntry entryCount rest).mapError .status
  (bodyEnd "AppendEntries request" rest).mapError .status
  return { term, leaderId, prevLogIndex, prevLogTerm, leaderCommit, entries }

/-- `EncodeAppendEntriesResponse`. -/
def encodeAppendEntriesResponse (resp : AppendEntriesResponse) : Bytes :=
  encodeReply resp.term resp.success

/-- `DecodeAppendEntriesResponse`. -/
def decodeAppendEntriesResponse (body : Bytes) : Except Status AppendEntriesResponse := do
  let (term, success) ← decodeReply "AppendEntries response" body
  return { term, success }

/-! ## Round trips -/

/-- The fields are as wide as in the source. -/
def RequestVoteRequest.Fits (req : RequestVoteRequest) : Prop :=
  req.term < 256 ^ 8 ∧ req.candidateId < 256 ^ 4 ∧ req.lastLogIndex < 256 ^ 8 ∧
    req.lastLogTerm < 256 ^ 8

/-- Numbers of 64 bits and lengths of 32. -/
def EntryFits (entry : LogEntry) : Prop :=
  entry.term < 256 ^ 8 ∧ entry.index < 256 ^ 8 ∧ entry.key.length < 256 ^ 4 ∧
    entry.value.length < 256 ^ 4

def AppendEntriesRequest.Fits (req : AppendEntriesRequest) : Prop :=
  (req.term < 256 ^ 8 ∧ req.leaderId < 256 ^ 4 ∧ req.prevLogIndex < 256 ^ 8 ∧
    req.prevLogTerm < 256 ^ 8 ∧ req.leaderCommit < 256 ^ 8) ∧
    req.entries.length < 256 ^ 4 ∧ ∀ entry ∈ req.entries, EntryFits entry

theorem bodyEnd_ok {message : String} {rest : Bytes} {u : Unit} :
    bodyEnd message rest = .ok u ↔ rest = [] := require_ok

theorem decodeRequestVoteRequest_iff {body : Bytes} {req : RequestVoteRequest} :
    decodeRequestVoteRequest body = .ok req ↔ req.Fits ∧ body = encodeRequestVoteRequest req := by
  simp only [decodeRequestVoteRequest, bind_ok, Prod.exists, number_ok, bodyEnd_ok]
  constructor
  · rintro ⟨term, _, ⟨hterm, rfl⟩, id, _, ⟨hid, rfl⟩, index, _, ⟨hindex, rfl⟩, lastTerm, _,
      ⟨hlast, rfl⟩, _, rfl, h⟩
    cases h
    exact ⟨⟨hterm, hid, hindex, hlast⟩, by simp [encodeRequestVoteRequest]⟩
  · rintro ⟨⟨hterm, hid, hindex, hlast⟩, rfl⟩
    refine ⟨_, _, ⟨hterm, ?_⟩, _, _, ⟨hid, rfl⟩, _, _, ⟨hindex, rfl⟩, _, [], ⟨hlast, rfl⟩, (), rfl,
      rfl⟩
    simp [encodeRequestVoteRequest]

theorem decodeReply_encodeReply (message : String) {term : Nat} (hterm : term < 256 ^ 8)
    (flag : Bool) : decodeReply message (encodeReply term flag) = .ok (term, flag) := by
  simp only [decodeReply, bind_ok, Prod.exists, number_ok, byte_ok, bodyEnd_ok]
  refine ⟨_, _, ⟨hterm, rfl⟩, _, [], rfl, (), rfl, ?_⟩
  cases flag <;> rfl

theorem decodeRequestVoteResponse_encode {resp : RequestVoteResponse} (h : resp.term < 256 ^ 8) :
    decodeRequestVoteResponse (encodeRequestVoteResponse resp) = .ok resp := by
  unfold decodeRequestVoteResponse encodeRequestVoteResponse
  rw [decodeReply_encodeReply _ h]
  rfl

theorem decodeAppendEntriesResponse_encode {resp : AppendEntriesResponse}
    (h : resp.term < 256 ^ 8) :
    decodeAppendEntriesResponse (encodeAppendEntriesResponse resp) = .ok resp := by
  unfold decodeAppendEntriesResponse encodeAppendEntriesResponse
  rw [decodeReply_encodeReply _ h]
  rfl

theorem decodeLogEntry_iff (bytes : Bytes) (entry : LogEntry) (rest : Bytes) :
    decodeLogEntry bytes = .ok (entry, rest) ↔
      EntryFits entry ∧ bytes = encodeLogEntry entry ++ rest := by
  simp only [decodeLogEntry, bind_ok, Prod.exists, number_ok, byte_ok, known_ok,
    WalOp.ofByte_eq_some, block_ok]
  constructor
  · rintro ⟨term, _, ⟨hterm, rfl⟩, index, _, ⟨hindex, rfl⟩, _, _, rfl, op, rfl, key, _, ⟨hkey, rfl⟩,
      value, _, ⟨hvalue, rfl⟩, h⟩
    cases h
    exact ⟨⟨hterm, hindex, hkey, hvalue⟩, by simp [encodeLogEntry]⟩
  · rintro ⟨⟨hterm, hindex, hkey, hvalue⟩, rfl⟩
    refine ⟨_, _, ⟨hterm, ?_⟩, _, _, ⟨hindex, rfl⟩, _, _, rfl, entry.op, rfl, entry.key, _,
      ⟨hkey, rfl⟩, entry.value, rest, ⟨hvalue, rfl⟩, rfl⟩
    simp [encodeLogEntry]

/-- **An AppendEntries body is accepted exactly if it is an encoding**, and there is memory for the
entries. -/
theorem decodeAppendEntriesRequest_iff {reserves : Nat → Bool} {body : Bytes}
    {req : AppendEntriesRequest} :
    decodeAppendEntriesRequest reserves body = .ok req ↔
      reserves req.entries.length = true ∧ req.Fits ∧ body = encodeAppendEntriesRequest req := by
  simp only [decodeAppendEntriesRequest, bind_ok, Prod.exists, number_ok, require_ok, mapError_ok,
    repeated_ok decodeLogEntry_iff, bodyEnd_ok]
  constructor
  · rintro ⟨term, _, ⟨hterm, rfl⟩, id, _, ⟨hid, rfl⟩, prevIndex, _, ⟨hprev, rfl⟩, prevTerm, _,
      ⟨hprevTerm, rfl⟩, commit, _, ⟨hcommit, rfl⟩, _, _, ⟨hcount, rfl⟩, _, hmemory, entries, _,
      ⟨rfl, hentries, rfl⟩, _, rfl, h⟩
    cases h
    exact ⟨hmemory, ⟨⟨hterm, hid, hprev, hprevTerm, hcommit⟩, hcount, hentries⟩,
      by simp [encodeAppendEntriesRequest]⟩
  · rintro ⟨hmemory, ⟨⟨hterm, hid, hprev, hprevTerm, hcommit⟩, hcount, hentries⟩, rfl⟩
    refine ⟨_, _, ⟨hterm, ?_⟩, _, _, ⟨hid, rfl⟩, _, _, ⟨hprev, rfl⟩, _, _, ⟨hprevTerm, rfl⟩, _, _,
      ⟨hcommit, rfl⟩, _, _, ⟨hcount, rfl⟩, (), hmemory, req.entries, [], ⟨rfl, hentries, rfl⟩, (),
      rfl, rfl⟩
    simp [encodeAppendEntriesRequest]

theorem encodeLogEntry_length (entry : LogEntry) :
    (encodeLogEntry entry).length = 25 + entry.key.length + entry.value.length := by
  simp [encodeLogEntry]
  omega

theorem encodeAppendEntriesRequest_length (req : AppendEntriesRequest) :
    (encodeAppendEntriesRequest req).length =
      40 + (encodeAll encodeLogEntry req.entries).length := by
  simp [encodeAppendEntriesRequest]
  omega

/-- The number of entries that the header of a body announces. -/
def announcedCount (body : Bytes) : Nat := ofBE ((body.drop 36).take 4)

theorem announcedCount_of_isPrefix {body body' : Bytes} (h : body <+: body')
    (hlen : 40 ≤ body.length) : announcedCount body = announcedCount body' := by
  obtain ⟨rest, rfl⟩ := h
  unfold announcedCount
  rw [List.drop_append_of_le_length (by omega), List.take_append_of_le_length (by simp; omega)]

theorem announcedCount_of_near {body encoded : Bytes}
    (h : body <+: encoded ∨ encoded <+: body) (hlen : 40 ≤ body.length)
    (hlen' : 40 ≤ encoded.length) : announcedCount body = announcedCount encoded := by
  rcases h with h | h
  · exact announcedCount_of_isPrefix h hlen
  · exact (announcedCount_of_isPrefix h hlen').symm

/-- The number of entries stands behind the 36 bytes of the other fields. -/
theorem announcedCount_fields {fields rest : Bytes} {n : Nat} (hfields : fields.length = 36)
    (hn : n < 256 ^ 4) : announcedCount (fields ++ (toBE 4 n ++ rest)) = n := by
  unfold announcedCount
  rw [← hfields, List.drop_left, List.take_left' (toBE_length _ _), ofBE_toBE_of_lt hn]

theorem announcedCount_encode {req : AppendEntriesRequest} (h : req.entries.length < 256 ^ 4) :
    announcedCount (encodeAppendEntriesRequest req) = req.entries.length := by
  unfold encodeAppendEntriesRequest
  rw [List.append_assoc]
  exact announcedCount_fields (by simp) h

/-- **When the decoder throws**: as soon as it has read a number of entries for which there is no
memory. -/
theorem decodeAppendEntriesRequest_badAlloc_iff {reserves : Nat → Bool} {body : Bytes} :
    decodeAppendEntriesRequest reserves body = .error .badAlloc ↔
      40 ≤ body.length ∧ reserves (announcedCount body) = false := by
  -- no other step fails in this way, so all fields up to the count have been read
  simp only [decodeAppendEntriesRequest, bind_error, Prod.exists, number_error, number_ok,
    require_error, mapError_error, pure, Except.pure, reduceCtorEq, and_false, exists_false,
    or_false, false_or, and_true]
  have hcount : ∀ (a b c d e n : Nat) (rest : Bytes), n < 256 ^ 4 →
      announcedCount (toBE 8 a ++ (toBE 4 b ++ (toBE 8 c ++ (toBE 8 d ++ (toBE 8 e ++
        (toBE 4 n ++ rest)))))) = n := by
    intro a b c d e n rest hn
    simp only [← List.append_assoc]
    rw [List.append_assoc]
    exact announcedCount_fields (by simp) hn
  constructor
  · rintro ⟨a, _, ⟨_, rfl⟩, b, _, ⟨_, rfl⟩, c, _, ⟨_, rfl⟩, d, _, ⟨_, rfl⟩, e, _, ⟨_, rfl⟩, n, rest,
      ⟨hn, rfl⟩, hmemory⟩
    rw [hcount a b c d e n rest hn]
    refine ⟨?_, Bool.eq_false_iff.mpr hmemory⟩
    simp
    omega
  · rintro ⟨hlen, hmemory⟩
    obtain ⟨a, r₁, ha, rfl⟩ := exists_number (show 8 ≤ body.length by omega)
    rw [List.length_append, toBE_length] at hlen
    obtain ⟨b, r₂, hb, rfl⟩ := exists_number (show 4 ≤ r₁.length by omega)
    rw [List.length_append, toBE_length] at hlen
    obtain ⟨c, r₃, hc, rfl⟩ := exists_number (show 8 ≤ r₂.length by omega)
    rw [List.length_append, toBE_length] at hlen
    obtain ⟨d, r₄, hd, rfl⟩ := exists_number (show 8 ≤ r₃.length by omega)
    rw [List.length_append, toBE_length] at hlen
    obtain ⟨e, r₅, he, rfl⟩ := exists_number (show 8 ≤ r₄.length by omega)
    rw [List.length_append, toBE_length] at hlen
    obtain ⟨n, rest, hn, rfl⟩ := exists_number (show 4 ≤ r₅.length by omega)
    rw [hcount a b c d e n rest hn] at hmemory
    exact ⟨a, _, ⟨ha, rfl⟩, b, _, ⟨hb, rfl⟩, c, _, ⟨hc, rfl⟩, d, _, ⟨hd, rfl⟩, e, _, ⟨he, rfl⟩, n,
      rest, ⟨hn, rfl⟩, Bool.eq_false_iff.mp hmemory⟩

/-- **No encoding is a proper prefix of another.** -/
theorem encodeAppendEntriesRequest_prefixFree {req req' : AppendEntriesRequest} (h : req.Fits)
    (h' : req'.Fits) (hpre : encodeAppendEntriesRequest req <+: encodeAppendEntriesRequest req') :
    req = req' := by
  obtain ⟨extra, heq⟩ := hpre
  obtain ⟨⟨h₁, h₂, h₃, h₄, h₅⟩, h₆, h₇⟩ := h
  obtain ⟨⟨h₁', h₂', h₃', h₄', h₅'⟩, h₆', h₇'⟩ := h'
  rw [← List.append_nil (encodeAppendEntriesRequest req')] at heq
  simp only [encodeAppendEntriesRequest, List.append_assoc] at heq
  -- field by field, then the counted entries
  obtain ⟨hterm, heq⟩ := number_eq_of_append_eq h₁ h₁' heq
  obtain ⟨hleader, heq⟩ := number_eq_of_append_eq h₂ h₂' heq
  obtain ⟨hprev, heq⟩ := number_eq_of_append_eq h₃ h₃' heq
  obtain ⟨hprevTerm, heq⟩ := number_eq_of_append_eq h₄ h₄' heq
  obtain ⟨hcommit, heq⟩ := number_eq_of_append_eq h₅ h₅' heq
  obtain ⟨hcount, heq⟩ := number_eq_of_append_eq h₆ h₆' heq
  have hread : ∀ (bytes : Bytes) (es : List LogEntry) (rest : Bytes),
      repeated decodeLogEntry req.entries.length bytes = .ok (es, rest) ↔
        (es.length = req.entries.length ∧ ∀ e ∈ es, EntryFits e) ∧
          bytes = encodeAll encodeLogEntry es ++ rest := by
    intro bytes es rest
    rw [repeated_ok decodeLogEntry_iff, and_assoc]
  obtain ⟨hentries, _⟩ := eq_of_append_eq hread ⟨rfl, h₇⟩ ⟨hcount.symm, h₇'⟩ heq
  cases req
  cases req'
  simp only at hterm hleader hprev hprevTerm hcommit hentries
  subst hterm hleader hprev hprevTerm hcommit hentries
  rfl

/-- **The codec of AppendEntries requests.**  A request comes back from its encoding, and every
proper prefix and extension of the encoding is rejected with an error, exactly if there is memory
for its entries; every accepted body is the encoding of what it is decoded to, so that no two bodies
are decoded to one request. -/
theorem appendEntriesRequest_bijection_iff (reserves : Nat → Bool) :
    (∀ req : AppendEntriesRequest, req.Fits →
        ((decodeAppendEntriesRequest reserves (encodeAppendEntriesRequest req) = .ok req ∧
            ∀ body, body ≠ encodeAppendEntriesRequest req →
              body <+: encodeAppendEntriesRequest req ∨ encodeAppendEntriesRequest req <+: body →
              ∃ status, decodeAppendEntriesRequest reserves body = .error (.status status)) ↔
          reserves req.entries.length = true)) ∧
      (∀ body req, decodeAppendEntriesRequest reserves body = .ok req →
        encodeAppendEntriesRequest req = body) ∧
      (∀ body body' req, decodeAppendEntriesRequest reserves body = .ok req →
        decodeAppendEntriesRequest reserves body' = .ok req → body = body') := by
  refine ⟨?_, ?_, ?_⟩
  · intro req h
    constructor
    · rintro ⟨hback, _⟩
      exact (decodeAppendEntriesRequest_iff.mp hback).1
    · intro hmemory
      refine ⟨decodeAppendEntriesRequest_iff.mpr ⟨hmemory, h, rfl⟩, ?_⟩
      intro body hne hpre
      cases hbody : decodeAppendEntriesRequest reserves body with
      | error failure =>
        cases failure with
        | status status => exact ⟨status, rfl⟩
        | badAlloc =>
          -- the body announces as many entries as the request has
          obtain ⟨hlen, hnone⟩ := decodeAppendEntriesRequest_badAlloc_iff.mp hbody
          rw [announcedCount_of_near hpre hlen (by rw [encodeAppendEntriesRequest_length]; omega),
            announcedCount_encode h.2.1, hmemory] at hnone
          cases hnone
      | ok req' =>
        obtain ⟨_, h', rfl⟩ := decodeAppendEntriesRequest_iff.mp hbody
        refine absurd ?_ hne
        rcases hpre with hpre | hpre
        · rw [encodeAppendEntriesRequest_prefixFree h' h hpre]
        · rw [encodeAppendEntriesRequest_prefixFree h h' hpre]
  · intro body req h
    exact (decodeAppendEntriesRequest_iff.mp h).2.2.symm
  · intro body body' req h h'
    rw [(decodeAppendEntriesRequest_iff.mp h).2.2, (decodeAppendEntriesRequest_iff.mp h').2.2]

/-- Memory for a million entries is enough for a request with two. -/
theorem appendEntriesRequest_bijection_two_entries :
    decodeAppendEntriesRequest (fun n => decide (n ≤ 1000000))
        (encodeAppendEntriesRequest
          ⟨4, 1, 5, 3, 5, [⟨4, 6, .kSet, [107], [118]⟩, ⟨4, 7, .kDelete, [107], []⟩]⟩) =
      .ok ⟨4, 1, 5, 3, 5, [⟨4, 6, .kSet, [107], [118]⟩, ⟨4, 7, .kDelete, [107], []⟩]⟩ := by
  have hfits : AppendEntriesRequest.Fits
      ⟨4, 1, 5, 3, 5, [⟨4, 6, .kSet, [107], [118]⟩, ⟨4, 7, .kDelete, [107], []⟩]⟩ :=
    ⟨by decide, by decide, by simp [EntryFits]⟩
  exact (((appendEntriesRequest_bijection_iff (fun n => decide (n ≤ 1000000))).1 _ hfits).mpr
    (by decide)).1

/-- **In general a proper prefix of an encoding is not rejected**: 40 bytes that announce
`2 ^ 32 - 1` entries, in a process without 256 GiB for them.  An entry takes 88 bytes. -/
theorem announced_count_throws :
    ¬ ∀ (reserves : Nat → Bool) (req : AppendEntriesRequest), req.Fits →
      ∀ body, body ≠ encodeAppendEntriesRequest req → body <+: encodeAppendEntriesRequest req →
        ∃ status, decodeAppendEntriesRequest reserves body = .error (.status status) := by
  intro hall
  obtain ⟨entries, hentries, hcount⟩ : ∃ entries : List LogEntry,
      (∀ e ∈ entries, e = { op := .kSet, key := [97], value := [49] }) ∧
        entries.length = 0xFFFFFFFF :=
    ⟨List.replicate 0xFFFFFFFF _, fun e he => List.eq_of_mem_replicate he, List.length_replicate⟩
  obtain ⟨req, hreq⟩ : ∃ req : AppendEntriesRequest, req = ⟨1, 1, 0, 0, 0, entries⟩ := ⟨_, rfl⟩
  have hfits : req.Fits := by
    rw [hreq]
    refine ⟨by simp, by rw [hcount]; decide, ?_⟩
    intro e he
    rw [hentries e he]
    simp [EntryFits]
  have hlen : 40 < (encodeAppendEntriesRequest req).length := by
    obtain ⟨e, he⟩ : ∃ e, e ∈ req.entries := by
      rw [hreq]
      exact List.exists_mem_of_length_pos (by rw [hcount]; decide)
    have hentry := length_encode_le encodeLogEntry he
    rw [encodeLogEntry_length] at hentry
    rw [encodeAppendEntriesRequest_length]
    omega
  have hshort : ((encodeAppendEntriesRequest req).take 40).length = 40 := by
    rw [List.length_take]
    omega
  have hcut := List.take_prefix 40 (encodeAppendEntriesRequest req)
  have hthrows : decodeAppendEntriesRequest (fun n => decide (88 * n ≤ 2 ^ 38))
      ((encodeAppendEntriesRequest req).take 40) = .error .badAlloc := by
    refine decodeAppendEntriesRequest_badAlloc_iff.mpr ⟨Nat.le_of_eq hshort.symm, ?_⟩
    rw [announcedCount_of_isPrefix hcut (Nat.le_of_eq hshort.symm),
      announcedCount_encode hfits.2.1, hreq, hcount]
    decide
  obtain ⟨status, hstatus⟩ := hall _ req hfits _ (fun heq => by rw [heq] at hshort; omega) hcut
  rw [hthrows] at hstatus
  cases hstatus

/-! ## One write in one RPC -/

/-- The entry that `Handle` hands to `Propose` for a write. -/
def Protocol.ClientRequest.entry (req : Protocol.ClientRequest) : Option LogEntry :=
  match req.opcode with
  | .kSet => some { op := .kSet, key := req.key, value := req.value }
  | .kDelete => some { op := .kDelete, key := req.key }
  | .kGet => none

/-- The request of `ReplicateToPeer` around an AppendEntries body. -/
def replicationRequest (req : AppendEntriesRequest) : Protocol.ClusterRequest where
  requestId := 0
  opcode := .kAppendEntries
  body := encodeAppendEntriesRequest req

/-- A decoded write and its entry have the same key and value. -/
theorem entry_of_decoded {payload : Bytes} {req : Protocol.ClientRequest} {entry : LogEntry}
    (hsize : payload.length ≤ Protocol.kMaxPayloadSize)
    (hdecode : Protocol.decodeClientRequest payload = .ok req) (hentry : req.entry = some entry) :
    entry.key = req.key ∧ entry.value = req.value := by
  obtain ⟨⟨_, hvalue⟩, _⟩ := (Protocol.decodeClientRequest_iff hsize).mp hdecode
  unfold Protocol.ClientRequest.entry at hentry
  cases hop : req.opcode with
  | kSet =>
    rw [hop] at hentry
    cases hentry
    exact ⟨rfl, rfl⟩
  | kDelete =>
    rw [hop] at hentry hvalue
    cases hentry
    exact ⟨rfl, (require_ok.mp hvalue).symm⟩
  | kGet =>
    rw [hop] at hentry
    cases hentry

/-- What is left of the cap after the headers of the two requests. -/
theorem replicationRequest_ok {req : AppendEntriesRequest} :
    (∃ frame, Protocol.encodeClusterRequest (replicationRequest req) = .ok frame) ↔
      13 + 40 + (encodeAll encodeLogEntry req.entries).length ≤ Protocol.kMaxPayloadSize := by
  simp only [Protocol.encodeClusterRequest, Protocol.encodeFrame_ok, replicationRequest,
    encodeAppendEntriesRequest_length]
  constructor
  · rintro ⟨_, hfits, _⟩
    omega
  · intro hfits
    exact ⟨_, by omega, rfl⟩

theorem singleEntry_ok {req : AppendEntriesRequest} {entry : LogEntry}
    (hreq : req.entries = [entry]) :
    (∃ frame, Protocol.encodeClusterRequest (replicationRequest req) = .ok frame) ↔
      13 + 40 + (25 + entry.key.length + entry.value.length) ≤ Protocol.kMaxPayloadSize := by
  rw [replicationRequest_ok, hreq, encodeAll_cons, encodeAll_nil, List.append_nil,
    encodeLogEntry_length]

/-- An entry that does not fit into a request of its own fits into none: the peers get neither this
entry nor any that `ReplicateToPeer` sends along with it. -/
theorem oversized_entry_never_sent {req : AppendEntriesRequest} {entry : LogEntry}
    (he : entry ∈ req.entries)
    (hbig : Protocol.kMaxPayloadSize < 13 + 40 + (25 + entry.key.length + entry.value.length)) :
    ¬ ∃ frame, Protocol.encodeClusterRequest (replicationRequest req) = .ok frame := by
  have hlen := length_encode_le encodeLogEntry he
  rw [encodeLogEntry_length] at hlen
  rw [replicationRequest_ok]
  omega

/-- **A client write can be replicated exactly if key and value take at most 16777138 bytes**, 61
bytes less than a client request may carry. -/
theorem write_fits_iff {payload : Bytes} {req : Protocol.ClientRequest} {entry : LogEntry}
    (hsize : payload.length ≤ Protocol.kMaxPayloadSize)
    (hdecode : Protocol.decodeClientRequest payload = .ok req) (hentry : req.entry = some entry)
    (entryTerm index term leaderId prevLogIndex prevLogTerm leaderCommit : Nat) :
    (∃ frame, Protocol.encodeClusterRequest (replicationRequest
        ⟨term, leaderId, prevLogIndex, prevLogTerm, leaderCommit,
          [{ entry with term := entryTerm, index := index }]⟩) = .ok frame) ↔
      req.key.length + req.value.length ≤ 16777138 := by
  obtain ⟨hkey, hvalue⟩ := entry_of_decoded hsize hdecode hentry
  rw [singleEntry_ok rfl]
  simp only [hkey, hvalue, Protocol.kMaxPayloadSize]
  omega

theorem write_fits_small :
    ∃ frame, Protocol.encodeClusterRequest (replicationRequest
      ⟨1, 1, 0, 0, 0, [{ term := 1, index := 1, op := .kSet, key := [97], value := [49] }]⟩) =
        .ok frame := by
  have hdecode : Protocol.decodeClientRequest
      [0, 0, 0, 0, 0, 0, 0, 7, 1, 0, 0, 0, 1, 97, 0, 0, 0, 1, 49] =
        .ok { requestId := 7, opcode := .kSet, key := [97], value := [49] } := by decide
  exact (write_fits_iff (by decide) hdecode rfl 1 1 1 1 0 0 0).mpr (by decide)

/-- **In general an accepted write cannot be replicated**: a SET that fills its frame. -/
theorem accepted_write_too_large :
    ¬ ∀ (payload : Bytes) (req : Protocol.ClientRequest) (entry : LogEntry),
      payload.length ≤ Protocol.kMaxPayloadSize →
      Protocol.decodeClientRequest payload = .ok req → req.entry = some entry →
      ∀ entryTerm index term leaderId prevLogIndex prevLogTerm leaderCommit : Nat,
        ∃ frame, Protocol.encodeClusterRequest (replicationRequest
          ⟨term, leaderId, prevLogIndex, prevLogTerm, leaderCommit,
            [{ entry with term := entryTerm, index := index }]⟩) = .ok frame := by
  intro hall
  -- one byte of key and the longest value that the client's frame can carry
  obtain ⟨value, hvalue⟩ : ∃ value : Bytes, value.length = 16777198 :=
    ⟨List.replicate 16777198 0, List.length_replicate⟩
  obtain ⟨req, hreq⟩ : ∃ req : Protocol.ClientRequest,
      req = { opcode := .kSet, key := [97], value := value } := ⟨_, rfl⟩
  have hsize : req.payload.length ≤ Protocol.kMaxPayloadSize := by
    rw [Protocol.ClientRequest.payload_length, hreq]
    simp [hvalue, Protocol.kMaxPayloadSize]
  have hvalid : req.Valid := by
    rw [hreq]
    refine ⟨by simp, require_ok.mpr ?_⟩
    rintro rfl
    cases hvalue
  have hdecode := (Protocol.decodeClientRequest_iff hsize).mpr ⟨hvalid, rfl⟩
  have hentry : req.entry = some { op := .kSet, key := [97], value := value } := by
    rw [hreq]
    rfl
  have hfits := (singleEntry_ok rfl).mp
    (hall req.payload req _ hsize hdecode hentry 1 1 1 1 0 0 0)
  simp [hvalue, Protocol.kMaxPayloadSize] at hfits

end NeuralKV
