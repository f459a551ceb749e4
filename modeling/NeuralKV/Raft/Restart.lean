import NeuralKV.Persistence.DurableStorage
import NeuralKV.Raft.NodeSpec
import NeuralKV.Raft.RpcCodec

/-!
# Replicated entries and the next start

A follower writes the entries of an `AppendEntries` request to `wal.log` as they come.  The file is
read again at the next start, by `RecoverFromWal`, by `WalWriter::OpenOrCreate` and by `Log::Load`,
and these readers check more than the decoder of the request does.

* `LogFile` — the Raft log together with the bytes of its file.
* `Restartable` — the three readers accept the file, up to its end, and find the log in it.
* `appendLoop_wrote` — what the loop of `HandleAppendEntries` keeps, drops and writes, whatever
  indices the entries of the request carry.
* `restartable_iff` — **a follower can start again after a request exactly if** the request brings
  no new entry with an empty key and no new SET with an empty value, and nothing is written behind a
  torn record.
* `run_restartable` — the same along every sequence of requests.
-/

set_option autoImplicit false

namespace NeuralKV

open Framing

/-! ## The log and its file -/

/-- `raft::Log` and the bytes of `wal.log`. -/
structure LogFile where
  log : Log := {}
  bytes : Bytes := []

namespace LogFile

/-- `Log::Append`: the file is open in `O_APPEND` mode. -/
def append (l : LogFile) (entry : LogEntry) : LogFile where
  log := l.log.append entry
  bytes := l.bytes ++ encodeWalRecord { entry with index := l.log.wal.lastIndex + 1 }

/-- `Log::TruncateFrom`: `RewriteAll` writes the entries that are kept into an empty file. -/
def truncateFrom (l : LogFile) (fromIndex : Nat) : LogFile where
  log := l.log.truncateFrom fromIndex
  bytes :=
    if fromIndex = 0 then l.bytes
    else encodeAll encodeWalRecord (l.log.truncateFrom fromIndex).entries

/-- The loop of `HandleAppendEntries` on log and file. -/
def appendLoop (l : LogFile) : Nat → List LogEntry → LogFile
  | _, [] => l
  | index, entry :: rest =>
    match l.log.get (index + 1) with
    | some existing =>
      if existing.term = entry.term then appendLoop l (index + 1) rest
      else appendLoop ((l.truncateFrom (index + 1)).append entry) (index + 1) rest
    | none => appendLoop (l.append entry) (index + 1) rest

/-- In memory this is the loop of the node. -/
theorem appendLoop_log : ∀ (entries : List LogEntry) (l : LogFile) (index : Nat),
    (l.appendLoop index entries).log = RaftNode.appendLoop l.log index entries
  | [], _, _ => rfl
  | entry :: rest, l, index => by
    unfold appendLoop RaftNode.appendLoop
    cases l.log.get (index + 1) with
    | none => exact appendLoop_log rest _ _
    | some existing =>
      by_cases hterm : existing.term = entry.term
      · simp only [hterm, if_true]
        exact appendLoop_log rest l _
      · simp only [hterm, if_false]
        exact appendLoop_log rest _ _

end LogFile

/-- `Log::Load`: the status and the entries. -/
def Log.loadFile (file : Bytes) : Status × List LogEntry :=
  let found := scanWal file
  (found.error.getD .Ok, found.frames)

/-- `wal.log` after `HandleAppendEntries`; a refused request writes nothing. -/
def RaftNode.walAfter (node : RaftNode) (req : AppendEntriesRequest) (file : Bytes) : Bytes :=
  if (node.handleAppendEntries req).2.success then
    (LogFile.appendLoop ⟨node.log, file⟩ req.prevLogIndex req.entries).bytes
  else file

/-- Every reader of the next start returns `Ok`, none of them stops before the end of the file, and
`Log::Load` returns `entries`. -/
structure Restartable (file : Bytes) (entries : List LogEntry) : Prop where
  recovered : ∀ hash : Bytes → Nat, (recoverFromWal hash file).1 = .Ok
  opened : (WalWriter.openOrCreate file).openStatus = .Ok
  loaded : Log.loadFile file = (.Ok, entries)
  atEnd : (scanWal file).tail = []

theorem restartable_iff_scan {file : Bytes} {entries : List LogEntry} :
    Restartable file entries ↔ scanWal file = ⟨entries, [], none⟩ := by
  constructor
  · intro h
    have hloaded := h.loaded
    have htail := h.atEnd
    have herror : (scanWal file).error = none := by
      cases he : (scanWal file).error with
      | none => rfl
      | some status =>
        have hstatus := congrArg Prod.fst hloaded
        simp only [Log.loadFile, he, Option.getD_some] at hstatus
        have hok := scanWal_error he
        rw [hstatus] at hok
        cases hok
    have hframes : (scanWal file).frames = entries := congrArg Prod.snd hloaded
    cases hscan : scanWal file with
    | mk frames tail error =>
      rw [hscan] at herror hframes htail
      simp only at herror hframes htail
      rw [herror, hframes, htail]
  · intro h
    refine ⟨fun hash => ?_, ?_, ?_, ?_⟩
    · simp [recoverFromWal, h]
    · simp [WalWriter.openOrCreate, h]
    · simp [Log.loadFile, h]
    · rw [h]

/-- A file that can be read at the next start is the encoding of the log. -/
theorem restartable_iff_bytes {file : Bytes} {entries : List LogEntry} :
    Restartable file entries ↔
      (∀ e ∈ entries, e.Encodable) ∧ file = encodeAll encodeWalRecord entries := by
  rw [restartable_iff_scan]
  constructor
  · intro h
    have hsound := scanWal_sound file
    rw [h, List.append_nil] at hsound
    exact hsound
  · rintro ⟨hentries, rfl⟩
    have hscan := scanWal_frames hentries (Or.inl rfl : Torn WalRecord.Encodable encodeWalRecord [])
    rwa [List.append_nil] at hscan

/-! ## What a request writes -/

namespace Log

/-- Where the loop of `HandleAppendEntries` meets the first entry that the log does not hold with
the same term: the index before it, and the entries from there on. -/
def firstNew (log : Log) : Nat → List LogEntry → Nat × List LogEntry
  | index, [] => (index, [])
  | index, entry :: rest =>
    match log.get (index + 1) with
    | some existing =>
      if existing.term = entry.term then firstNew log (index + 1) rest else (index, entry :: rest)
    | none => (index, entry :: rest)

/-- The entries of a request that are new to the log. -/
def newEntries (log : Log) (prevLogIndex : Nat) (entries : List LogEntry) : List LogEntry :=
  (log.firstNew prevLogIndex entries).2

/-- The first new entry takes the place of another one: the log is truncated. -/
def Conflicts (log : Log) (prevLogIndex : Nat) (entries : List LogEntry) : Prop :=
  log.newEntries prevLogIndex entries ≠ [] ∧
    (log.firstNew prevLogIndex entries).1 < log.entries.length

variable {log : Log}

/-- One round of the search: the entry is there and the search goes on, or it is the first new
one. -/
theorem firstNew_cons (log : Log) (index : Nat) (entry : LogEntry) (rest : List LogEntry) :
    (∃ existing, log.get (index + 1) = some existing ∧ existing.term = entry.term ∧
        log.firstNew index (entry :: rest) = log.firstNew (index + 1) rest) ∨
      ((∀ existing, log.get (index + 1) = some existing → existing.term ≠ entry.term) ∧
        log.firstNew index (entry :: rest) = (index, entry :: rest)) := by
  cases hget : log.get (index + 1) with
  | none =>
    right
    refine ⟨fun existing h => (by cases h), ?_⟩
    simp only [firstNew, hget]
  | some existing =>
    by_cases hterm : existing.term = entry.term
    · left
      refine ⟨existing, rfl, hterm, ?_⟩
      simp only [firstNew, hget, hterm, if_true]
    · right
      refine ⟨fun found h => ?_, ?_⟩
      · cases h
        exact hterm
      · simp only [firstNew, hget, hterm, if_false]

theorem firstNew_le (hlog : log.Contiguous) : ∀ (entries : List LogEntry) (index : Nat),
    index ≤ log.entries.length → (log.firstNew index entries).1 ≤ log.entries.length
  | [], _, h => h
  | entry :: rest, index, h => by
    rcases firstNew_cons log index entry rest with ⟨_, hget, _, heq⟩ | ⟨_, heq⟩
    · rw [heq]
      exact firstNew_le hlog rest _ (hlog.le_of_get hget)
    · rw [heq]
      exact h

/-- The entries before the first new one, and the new ones. -/
theorem firstNew_split (log : Log) : ∀ (entries : List LogEntry) (index : Nat),
    ∃ held, entries = held ++ log.newEntries index entries ∧
      (log.firstNew index entries).1 = index + held.length
  | [], _ => ⟨[], rfl, rfl⟩
  | entry :: rest, index => by
    unfold newEntries
    rcases firstNew_cons log index entry rest with ⟨_, _, _, heq⟩ | ⟨_, heq⟩
    · obtain ⟨held, hrest, hp⟩ := firstNew_split log rest (index + 1)
      refine ⟨entry :: held, ?_, ?_⟩
      · rw [heq, List.cons_append]
        exact congrArg (List.cons entry) hrest
      · rw [heq, hp, List.length_cons]
        omega
    · rw [heq]
      exact ⟨[], rfl, rfl⟩

theorem firstNew_ne : ∀ {entries rest : List LogEntry} {index p : Nat} {entry existing : LogEntry},
    log.firstNew index entries = (p, entry :: rest) → log.get (p + 1) = some existing →
      existing.term ≠ entry.term
  | [], _, _, _, _, _, h, _ => by cases h
  | e :: es, _, index, _, _, _, h, hp => by
    rcases firstNew_cons log index e es with ⟨_, _, _, heq⟩ | ⟨hne, heq⟩
    · exact firstNew_ne (heq.symm.trans h) hp
    · cases heq.symm.trans h
      exact hne _ hp

theorem newEntries_subset (log : Log) (entries : List LogEntry) (index : Nat) :
    ∀ e ∈ log.newEntries index entries, e ∈ entries := by
  intro e he
  obtain ⟨held, hsplit, _⟩ := firstNew_split log entries index
  rw [hsplit]
  exact List.mem_append_right held he

end Log

/-- Entries with the indices they get behind entry `p`. -/
def renumber : Nat → List LogEntry → List LogEntry
  | _, [] => []
  | p, e :: es => { e with index := p + 1 } :: renumber (p + 1) es

theorem exists_of_mem_renumber {r : LogEntry} :
    ∀ {es : List LogEntry} {p : Nat}, r ∈ renumber p es → ∃ e ∈ es, r = { e with index := r.index }
  | [], _, h => by cases h
  | e :: es, p, h => by
    rcases List.mem_cons.mp h with rfl | h
    · exact ⟨e, List.mem_cons_self, rfl⟩
    · obtain ⟨e', he', heq⟩ := exists_of_mem_renumber h
      exact ⟨e', List.mem_cons_of_mem _ he', heq⟩

theorem mem_renumber {e : LogEntry} :
    ∀ {es : List LogEntry} {p : Nat}, e ∈ es → ∃ i, { e with index := i } ∈ renumber p es
  | [], _, h => by cases h
  | e' :: es, p, h => by
    rcases List.mem_cons.mp h with rfl | h
    · exact ⟨p + 1, List.mem_cons_self⟩
    · obtain ⟨i, hi⟩ := mem_renumber (p := p + 1) h
      exact ⟨i, List.mem_cons_of_mem _ hi⟩

namespace LogFile

/-- The entries that the log already holds are skipped. -/
theorem appendLoop_firstNew : ∀ (entries : List LogEntry) (l : LogFile) (index : Nat),
    l.appendLoop index entries =
      l.appendLoop (l.log.firstNew index entries).1 (l.log.firstNew index entries).2
  | [], _, _ => rfl
  | entry :: rest, l, index => by
    rcases Log.firstNew_cons l.log index entry rest with ⟨existing, hget, hterm, heq⟩ | ⟨_, heq⟩
    · rw [heq, ← appendLoop_firstNew rest l (index + 1)]
      simp only [appendLoop, hget, hterm, if_true]
    · rw [heq]

theorem append_bytes {l : LogFile} (hl : l.log.Contiguous) (entry : LogEntry) :
    (l.append entry).bytes =
      l.bytes ++ encodeWalRecord { entry with index := l.log.entries.length + 1 } := by
  unfold append
  rw [hl.lastIndex]

/-- Behind the end of the log the loop only appends, to the log and to the file. -/
theorem appendLoop_end : ∀ (entries : List LogEntry) {l : LogFile} {p : Nat},
    l.log.Contiguous → p = l.log.entries.length →
      (l.appendLoop p entries).log.Contiguous ∧
      (l.appendLoop p entries).log.entries = l.log.entries ++ renumber p entries ∧
      (l.appendLoop p entries).bytes =
        l.bytes ++ encodeAll encodeWalRecord (renumber p entries)
  | [], l, p, hl, _ => by
    refine ⟨hl, ?_, ?_⟩
    · simp [appendLoop, renumber]
    · simp [appendLoop, renumber]
  | entry :: rest, l, p, hl, hp => by
    have hget : l.log.get (p + 1) = none := by
      rw [hl.get_eq (by omega)]
      exact List.getElem?_eq_none (by omega)
    have hentries : (l.append entry).log.entries =
        l.log.entries ++ [{ entry with index := p + 1 }] := by
      rw [hp]
      exact Log.append_entries l.log hl entry
    have hbytes := append_bytes hl entry
    rw [← hp] at hbytes
    obtain ⟨hcont, hlog, hfile⟩ := appendLoop_end rest (l := l.append entry) (p := p + 1)
      (Log.append_contiguous hl entry) (by rw [hentries]; simp [hp])
    unfold appendLoop
    rw [hget]
    refine ⟨hcont, ?_, ?_⟩
    · simp only [hlog, hentries, renumber]
      simp
    · simp only [hfile, hbytes, renumber]
      simp

/-- An entry of another term: the log is cut in front of it, and from there on the loop is the loop
behind the end of what is left. -/
theorem appendLoop_conflict {l : LogFile} {p : Nat} {entry existing : LogEntry}
    (rest : List LogEntry) (hl : l.log.Contiguous) (hp : l.log.entries[p]? = some existing)
    (hterm : existing.term ≠ entry.term) :
    (l.appendLoop p (entry :: rest)).log.Contiguous ∧
      (l.appendLoop p (entry :: rest)).log.entries =
        l.log.entries.take p ++ renumber p (entry :: rest) ∧
      (l.appendLoop p (entry :: rest)).bytes =
        encodeAll encodeWalRecord (l.appendLoop p (entry :: rest)).log.entries := by
  have hlt := (List.getElem?_eq_some_iff.mp hp).1
  have hcut : (l.truncateFrom (p + 1)).log.entries = l.log.entries.take p :=
    Log.truncateFrom_entries hl p
  have hcutc : (l.truncateFrom (p + 1)).log.Contiguous := Log.truncateFrom_contiguous hl p
  have hcutb : (l.truncateFrom (p + 1)).bytes =
      encodeAll encodeWalRecord (l.log.entries.take p) := by
    rw [← hcut]
    simp [truncateFrom]
  have hlen : p = (l.truncateFrom (p + 1)).log.entries.length := by
    rw [hcut, List.length_take]
    omega
  have hstep : l.appendLoop p (entry :: rest) =
      (l.truncateFrom (p + 1)).appendLoop p (entry :: rest) := by
    have hget : l.log.get (p + 1) = some existing := by
      rw [hl.get_eq (by omega)]
      exact hp
    have hnone : (l.truncateFrom (p + 1)).log.get (p + 1) = none := by
      rw [hcutc.get_eq (by omega)]
      exact List.getElem?_eq_none (by omega)
    simp only [appendLoop, hget, hterm, hnone, if_false]
  obtain ⟨hcont, hlog, hfile⟩ := appendLoop_end (entry :: rest) hcutc hlen
  rw [hcut] at hlog
  rw [hstep]
  refine ⟨hcont, hlog, ?_⟩
  rw [hfile, hlog, hcutb, encodeAll_append]

/-- **What the loop keeps, drops and writes.**  Either the log is cut in front of the first new
entry and the whole file is written again, or the new entries are written behind everything. -/
theorem appendLoop_wrote {l : LogFile} {prev : Nat} (entries : List LogEntry)
    (hl : l.log.Contiguous) (hprev : prev ≤ l.log.entries.length) :
    (l.appendLoop prev entries).log.Contiguous ∧
      ((l.log.Conflicts prev entries ∧
          (l.appendLoop prev entries).log.entries =
            l.log.entries.take (l.log.firstNew prev entries).1 ++
              renumber (l.log.firstNew prev entries).1 (l.log.newEntries prev entries) ∧
          (l.appendLoop prev entries).bytes =
            encodeAll encodeWalRecord (l.appendLoop prev entries).log.entries) ∨
        (¬ l.log.Conflicts prev entries ∧
          (l.appendLoop prev entries).log.entries =
            l.log.entries ++
              renumber (l.log.firstNew prev entries).1 (l.log.newEntries prev entries) ∧
          (l.appendLoop prev entries).bytes =
            l.bytes ++ encodeAll encodeWalRecord
              (renumber (l.log.firstNew prev entries).1 (l.log.newEntries prev entries)))) := by
  have hle := Log.firstNew_le hl entries prev hprev
  rw [appendLoop_firstNew]
  unfold Log.Conflicts Log.newEntries
  rcases hnew : l.log.firstNew prev entries with ⟨p, new⟩
  rw [hnew] at hle
  simp only at hle ⊢
  by_cases hend : p = l.log.entries.length
  · obtain ⟨hcont, hlog, hfile⟩ := appendLoop_end new hl hend
    exact ⟨hcont, Or.inr ⟨fun h => by omega, hlog, hfile⟩⟩
  · cases new with
    | nil =>
      refine ⟨hl, Or.inr ⟨fun h => h.1 rfl, ?_, ?_⟩⟩
      · simp [appendLoop, renumber]
      · simp [appendLoop, renumber]
    | cons entry rest =>
      have hlt : p < l.log.entries.length := by omega
      have hp : l.log.entries[p]? = some l.log.entries[p] := List.getElem?_eq_getElem hlt
      have hget : l.log.get (p + 1) = some l.log.entries[p] := by
        rw [hl.get_eq (by omega)]
        exact hp
      obtain ⟨hcont, hlog, hfile⟩ := appendLoop_conflict rest hl hp (Log.firstNew_ne hnew hget)
      exact ⟨hcont, Or.inl ⟨⟨by simp, hlt⟩, hlog, hfile⟩⟩

/-- The log afterwards is some beginning of the log before, and the new entries. -/
theorem appendLoop_kept {l : LogFile} {prev : Nat} (entries : List LogEntry)
    (hl : l.log.Contiguous) (hprev : prev ≤ l.log.entries.length) :
    ∃ kept, kept <+: l.log.entries ∧ (l.appendLoop prev entries).log.entries =
      kept ++ renumber (l.log.firstNew prev entries).1 (l.log.newEntries prev entries) := by
  rcases (appendLoop_wrote entries hl hprev).2 with ⟨_, hentries, _⟩ | ⟨_, hentries, _⟩
  · exact ⟨_, List.take_prefix _ _, hentries⟩
  · exact ⟨_, List.prefix_rfl, hentries⟩

end LogFile

/-! ## The next start -/

/-- What `ReadNextWalRecord` asks of the contents of a record. -/
def Replayable (e : LogEntry) : Prop := e.key ≠ [] ∧ (e.op = .kSet → e.value ≠ [])

instance (e : LogEntry) : Decidable (Replayable e) :=
  inferInstanceAs (Decidable (_ ∧ _))

/-- What the format asks of an entry, whatever it says. -/
structure Storable (e : LogEntry) : Prop where
  term : e.term < 2 ^ 64
  key : e.key.length ≤ kMaxFieldSize
  value : e.value.length ≤ kMaxFieldSize

theorem Storable.encodable {e : LogEntry} (h : Storable e) (hreplay : Replayable e) {index : Nat}
    (hindex : index < 2 ^ 64) : WalRecord.Encodable { e with index := index } := by
  refine ⟨?_, h.term, hindex⟩
  simp only [WalRecord.readable, Bool.and_eq_true, decide_eq_true_eq]
  exact ⟨⟨⟨h.key, h.value⟩, hreplay.1⟩, hreplay.2⟩

theorem WalRecord.Encodable.replayable {e : LogEntry} (h : e.Encodable) : Replayable e := by
  have hr := h.readable
  simp only [WalRecord.readable, Bool.and_eq_true, decide_eq_true_eq] at hr
  exact ⟨hr.1.2, hr.2⟩

/-- Positions in a log that fits into a file are numbers of 64 bits. -/
theorem index_lt_of_file {entries : List LogEntry} {e : LogEntry} (hnum : Numbered entries)
    (hio : (encodeAll encodeWalRecord entries).length ≤ maxFileSize) (he : e ∈ entries) :
    e.index < 2 ^ 64 := by
  obtain ⟨i, hi⟩ := List.getElem?_of_mem he
  have hlt := (List.getElem?_eq_some_iff.mp hi).1
  have hindex := hnum i e hi
  have hlen : 1 * entries.length ≤ (encodeAll encodeWalRecord entries).length := by
    refine le_length_encodeAll fun r _ => ?_
    rw [WalRecord.encode_length, kFixedHeaderSize]
    omega
  rw [maxFileSize] at hio
  omega

/-- **The file can be read after the loop exactly if** every new entry can, and none of them stands
behind a torn record. -/
theorem LogFile.appendLoop_restartable {l : LogFile} {prev : Nat} {entries : List LogEntry}
    {tail : Bytes} (hlog : l.log.Contiguous) (hprev : prev ≤ l.log.entries.length)
    (hread : scanWal l.bytes = ⟨l.log.entries, tail, none⟩) (hfits : ∀ e ∈ entries, Storable e)
    (hio : (l.appendLoop prev entries).bytes.length ≤ maxFileSize) :
    Restartable (l.appendLoop prev entries).bytes (l.appendLoop prev entries).log.entries ↔
      (tail = [] ∨ l.log.Conflicts prev entries) ∧
        ∀ e ∈ l.log.newEntries prev entries, Replayable e := by
  obtain ⟨hold, hfile⟩ := scanWal_sound l.bytes
  rw [hread] at hold hfile
  rw [restartable_iff_bytes]
  obtain ⟨hcont, hwrote⟩ := LogFile.appendLoop_wrote entries hlog hprev
  obtain ⟨kept, hkept, hentries⟩ := LogFile.appendLoop_kept entries hlog hprev
  have hsub := Log.newEntries_subset l.log entries prev
  simp only at hold hfile
  constructor
  · rintro ⟨hall, hwritten⟩
    refine ⟨?_, fun e he => ?_⟩
    · rcases hwrote with ⟨hconf, _⟩ | ⟨_, hlog', hb⟩
      · exact Or.inr hconf
      · -- the encoding of the log leaves no room for a torn record
        left
        have hlen := congrArg List.length (hb.symm.trans hwritten)
        rw [hlog', hfile, encodeAll_append] at hlen
        simp only [List.length_append] at hlen
        exact List.eq_nil_of_length_eq_zero (by omega)
    · obtain ⟨i, hi⟩ := mem_renumber (p := (l.log.firstNew prev entries).1) he
      rw [hentries] at hall
      exact (hall _ (List.mem_append_right _ hi)).replayable
  · rintro ⟨htail, hvalid⟩
    have hwritten : (l.appendLoop prev entries).bytes =
        encodeAll encodeWalRecord (l.appendLoop prev entries).log.entries := by
      rcases hwrote with ⟨_, _, hb⟩ | ⟨hconf, hlog', hb⟩
      · exact hb
      · rw [hb, hlog', hfile, htail.resolve_right hconf, encodeAll_append, List.append_nil]
    refine ⟨fun r hr => ?_, hwritten⟩
    have hindex : r.index < 2 ^ 64 := index_lt_of_file hcont.numbered (hwritten ▸ hio) hr
    rw [hentries] at hr
    rcases List.mem_append.mp hr with hr | hr
    · exact hold r (hkept.subset hr)
    · obtain ⟨e, he, heq⟩ := exists_of_mem_renumber hr
      rw [heq]
      exact (hfits e (hsub e he)).encodable (hvalid e he) hindex

/-- What the decoder accepts, in a frame that the cluster transport accepts, can be stored. -/
theorem storable_of_decoded {reserves : Nat → Bool} {body : Bytes} {req : AppendEntriesRequest}
    (hdecode : decodeAppendEntriesRequest reserves body = .ok req)
    (hsize : 13 + body.length ≤ Protocol.kMaxPayloadSize) : ∀ e ∈ req.entries, Storable e := by
  obtain ⟨_, ⟨_, _, hfits⟩, rfl⟩ := decodeAppendEntriesRequest_iff.mp hdecode
  intro e he
  have hlen := length_encode_le encodeLogEntry he
  rw [encodeAppendEntriesRequest_length, Protocol.kMaxPayloadSize] at hsize
  rw [encodeLogEntry_length] at hlen
  refine ⟨(hfits e he).1, ?_, ?_⟩
  · rw [kMaxFieldSize]
    omega
  · rw [kMaxFieldSize]
    omega

theorem RaftNode.handleAppendEntries_file {node : RaftNode} (req : AppendEntriesRequest)
    (file : Bytes) (hlog : node.log.Contiguous) :
    ((node.handleAppendEntries req).2.success = false ∧
        (node.handleAppendEntries req).1.log = node.log ∧ node.walAfter req file = file) ∨
      ((node.handleAppendEntries req).2.success = true ∧
        req.prevLogIndex ≤ node.log.entries.length ∧
        (node.handleAppendEntries req).1.log =
          (LogFile.appendLoop ⟨node.log, file⟩ req.prevLogIndex req.entries).log ∧
        node.walAfter req file =
          (LogFile.appendLoop ⟨node.log, file⟩ req.prevLogIndex req.entries).bytes) := by
  have hfields := node.acceptLeader_fields req
  rw [LogFile.appendLoop_log]
  unfold walAfter
  rcases node.handleAppendEntries_cases req with ⟨_, heq⟩ | ⟨_, heq⟩ | ⟨_, hprev, heq⟩
  · rw [heq]
    exact Or.inl ⟨rfl, rfl, rfl⟩
  · rw [heq]
    exact Or.inl ⟨rfl, hfields.1, rfl⟩
  · rw [heq]
    refine Or.inr ⟨rfl, ?_, ?_, rfl⟩
    · exact (hasPrev_of_accepted hlog hprev).le
    · exact (followCommit_fields _ req.leaderCommit).1

/-- **A follower can start again after an accepted request exactly if** every new entry has a key
and every new SET a value, and they do not stand behind the torn record `tail` of an earlier
crash.  The frame cap leaves a body `kMaxPayloadSize - 13` bytes; a `write` that succeeds ends
within the range of file offsets. -/
theorem restartable_iff {node : RaftNode} {reserves : Nat → Bool} {file tail body : Bytes}
    {req : AppendEntriesRequest} (hlog : node.log.Contiguous)
    (hread : scanWal file = ⟨node.log.entries, tail, none⟩)
    (hdecode : decodeAppendEntriesRequest reserves body = .ok req)
    (hsize : 13 + body.length ≤ Protocol.kMaxPayloadSize)
    (hsuccess : (node.handleAppendEntries req).2.success = true)
    (hio : (node.walAfter req file).length ≤ maxFileSize) :
    Restartable (node.walAfter req file) (node.handleAppendEntries req).1.log.entries ↔
      (tail = [] ∨ node.log.Conflicts req.prevLogIndex req.entries) ∧
        ∀ e ∈ node.log.newEntries req.prevLogIndex req.entries,
          e.key ≠ [] ∧ (e.op = .kSet → e.value ≠ []) := by
  rcases RaftNode.handleAppendEntries_file req file hlog with ⟨hfail, _⟩ | ⟨_, hprev, hlog', hfile⟩
  · rw [hsuccess] at hfail
    cases hfail
  · rw [hfile] at hio ⊢
    rw [hlog']
    exact LogFile.appendLoop_restartable (l := ⟨node.log, file⟩) hlog hprev hread
      (storable_of_decoded hdecode hsize) hio

/-- A leader of term 1 sends its first entry to a fresh follower. -/
def firstRequest (entry : LogEntry) : AppendEntriesRequest where
  term := 1
  leaderId := 1
  prevLogIndex := 0
  prevLogTerm := 0
  leaderCommit := 0
  entries := [entry]

theorem firstRequest_decoded (entry : LogEntry) (h : entry.term < 256 ^ 8 ∧ entry.index < 256 ^ 8 ∧
    entry.key.length < 256 ^ 4 ∧ entry.value.length < 256 ^ 4) :
    decodeAppendEntriesRequest (fun _ => true) (encodeAppendEntriesRequest (firstRequest entry)) =
      .ok (firstRequest entry) := by
  refine decodeAppendEntriesRequest_iff.mpr
    ⟨rfl, ⟨by simp [firstRequest], by simp [firstRequest], ?_⟩, rfl⟩
  intro e he
  cases List.mem_singleton.mp he
  exact h

theorem restartable_first_set :
    Restartable
      ((RaftNode.fresh List.length).walAfter (firstRequest ⟨1, 1, .kSet, [97], [49]⟩) [])
      ((RaftNode.fresh List.length).handleAppendEntries
        (firstRequest ⟨1, 1, .kSet, [97], [49]⟩)).1.log.entries := by
  have hread : scanWal [] = ⟨[], [], none⟩ := rfl
  have hdecode := firstRequest_decoded ⟨1, 1, .kSet, [97], [49]⟩ (by decide)
  refine (restartable_iff Log.Contiguous.empty hread hdecode (by decide) rfl ?_).mpr
    ⟨Or.inl rfl, by decide⟩
  decide +kernel

/-- **In general it cannot**: a SET without a value is decoded, stored and acknowledged, and the
file is corrupt to every reader. -/
theorem accepted_entry_not_restartable :
    ¬ ∀ (node : RaftNode) (file body : Bytes) (req : AppendEntriesRequest),
      node.log.Contiguous → scanWal file = ⟨node.log.entries, [], none⟩ →
      decodeAppendEntriesRequest (fun _ => true) body = .ok req →
      13 + body.length ≤ Protocol.kMaxPayloadSize →
      (node.handleAppendEntries req).2.success = true →
      (node.walAfter req file).length ≤ maxFileSize →
      Restartable (node.walAfter req file) (node.handleAppendEntries req).1.log.entries := by
  intro hall
  have hdecode := firstRequest_decoded ⟨1, 1, .kSet, [97], []⟩ (by decide)
  have hstart := hall (RaftNode.fresh List.length) [] _ _ Log.Contiguous.empty rfl hdecode
    (by decide) rfl (by decide +kernel)
  have hcorrupt : (WalWriter.openOrCreate ((RaftNode.fresh List.length).walAfter
      (firstRequest ⟨1, 1, .kSet, [97], []⟩) [])).openStatus =
        corruptRecord "SET with empty value" := by decide +kernel
  have hopened := hstart.opened
  rw [hcorrupt] at hopened
  cases hopened

/-! ## Along a run -/

/-- A follower and its `wal.log`. -/
structure Follower where
  node : RaftNode
  file : Bytes := []

namespace Follower

/-- The body of an AppendEntries request arrives; `HandleCluster` refuses one it cannot decode, and
ends the process if there is no memory for the entries that it announces.  There is no frame for a
body beyond the cap, and no `write` beyond the range of file offsets. -/
def receive (reserves : Nat → Bool) (f : Follower) (body : Bytes) : Option Follower :=
  if Protocol.kMaxPayloadSize < 13 + body.length then none
  else
    match decodeAppendEntriesRequest reserves body with
    | .error .badAlloc => none
    | .error (.status _) => some f
    | .ok req =>
      if maxFileSize < (f.node.walAfter req f.file).length then none
      else some ⟨(f.node.handleAppendEntries req).1, f.node.walAfter req f.file⟩

/-- The request brings only entries that can be read again. -/
def BringsReplayable (reserves : Nat → Bool) (f : Follower) (body : Bytes) : Prop :=
  ∀ req, decodeAppendEntriesRequest reserves body = .ok req →
    ∀ e ∈ f.node.log.newEntries req.prevLogIndex req.entries, Replayable e

/-- The log is contiguous, and the next start finds it in the file. -/
structure Sound (f : Follower) : Prop where
  contiguous : f.node.log.Contiguous
  restartable : Restartable f.file f.node.log.entries

theorem Sound.fresh (hash : Bytes → Nat) : Sound ⟨RaftNode.fresh hash, []⟩ :=
  ⟨Log.Contiguous.empty, restartable_iff_scan.mpr rfl⟩

theorem Sound.receive {reserves : Nat → Bool} {f f' : Follower} {body : Bytes} (hf : f.Sound)
    (hok : f.BringsReplayable reserves body) (hstep : f.receive reserves body = some f') :
    f'.Sound := by
  unfold Follower.receive at hstep
  split at hstep
  · cases hstep
  · rename_i hsize
    split at hstep
    · cases hstep
    · cases hstep
      exact hf
    · rename_i req hdecode
      split at hstep
      · cases hstep
      · rename_i hio
        cases hstep
        have hscan := restartable_iff_scan.mp hf.restartable
        rcases RaftNode.handleAppendEntries_file req f.file hf.contiguous with
          ⟨_, hlog, hfile⟩ | ⟨_, hprev, hlog, hfile⟩
        · refine ⟨?_, ?_⟩
          · simpa only [hlog] using hf.contiguous
          · simpa only [hlog, hfile] using hf.restartable
        · rw [hfile] at hio
          have hfits := storable_of_decoded hdecode (Nat.le_of_not_lt hsize)
          have hiff := LogFile.appendLoop_restartable (l := ⟨f.node.log, f.file⟩) hf.contiguous
            hprev hscan hfits (Nat.le_of_not_lt hio)
          refine ⟨?_, ?_⟩
          · simpa only [hlog] using (LogFile.appendLoop_wrote req.entries hf.contiguous hprev).1
          · simpa only [hlog, hfile] using hiff.mpr ⟨Or.inl rfl, hok req hdecode⟩

/-- **A follower can start again in every state** that it reaches from an empty data directory by
requests with readable entries. -/
theorem run_restartable {reserves : Nat → Bool} {hash : Bytes → Nat} {f : Follower}
    (hr : Runs.Run (Follower.receive reserves) ⟨RaftNode.fresh hash, []⟩
      (BringsReplayable reserves) f) :
    Restartable f.file f.node.log.entries := by
  suffices h : f.Sound from h.restartable
  induction hr with
  | init => exact Sound.fresh hash
  | step _ hok hstep ih => exact ih.receive hok hstep

end Follower

end NeuralKV
