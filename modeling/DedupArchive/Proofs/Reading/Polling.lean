/-
  DedupArchive/Proofs/Reading/Polling.lean
  ========================================
  **A chunk stream and a chunk reader give the same.**

  A poll that finds the reader not ready gives nothing and keeps its place: what has
  been read since is held, and the rest is still to be read.  Every other poll does
  what a call does to a chunk reader whose reader is always ready.  So the polls give
  what the calls give, with one more poll for each time that the reader was not ready.
-/
import DedupArchive.Proofs.Reading.Iteration
import DedupArchive.Reading.ChunkStream

namespace DedupArchive

/-! ### Readers that are polled -/

namespace Script

/-- The script of a reader that does the same and is always ready. -/
def awake (s : Script) : Script := s.filter (· ≠ .pending)

/-- How often the reader is not ready before the first read that gives none or fails. -/
def pauses : Script → Nat
  | [] => 0
  | .pending :: rest => pauses rest + 1
  | .failure e :: rest => if e.kind = .interrupted then pauses rest else 0
  | .data bytes limit :: rest => if bytes = [] ∨ limit = some 0 then 0 else pauses rest

theorem give_awake (bytes : Bytes) (limit : Option Nat) (rest : Script) (n : Nat) :
    give bytes limit (awake rest) n =
      ((give bytes limit rest n).1, awake (give bytes limit rest n).2) := by
  unfold give
  dsimp only
  split <;> rfl

theorem pauses_give {bytes : Bytes} {limit : Option Nat} (rest : Script) {n : Nat} (hn : 0 < n)
    (hlimit : limit ≠ some 0) : pauses (give bytes limit rest n).2 = pauses rest := by
  obtain ⟨size, -, ⟨-, hgive⟩ | ⟨hleft, hgive⟩⟩ := @give_cases bytes _ rest n hn hlimit
  · rw [hgive]
  · rw [hgive, pauses, if_neg (not_or.mpr ⟨hleft, hlimit⟩)]

/-- A reader that is not ready is so once, and nothing else has changed. -/
theorem poll_pending {s : Script} {n : Nat} (h : (s.poll n).1 = .pending) :
    (s.poll n).2.awake = s.awake ∧ s.pauses = (s.poll n).2.pauses + 1 ∧
      s.delivered = (s.poll n).2.delivered := by
  match s with
  | .pending :: rest => exact ⟨rfl, rfl, rfl⟩
  | [] | .failure _ :: _ | .data _ _ :: _ => cases h

def pausesAfter (rest : Script) : Except IoError Bytes → Nat
  | .ok [] => 0
  | .ok (_ :: _) => pauses rest
  | .error e => if e.kind = .interrupted then pauses rest else 0

/-- A reader that is ready does what a read does. -/
theorem poll_ready {s : Script} {n : Nat} (hn : 0 < n) {outcome : Except IoError Bytes}
    (h : (s.poll n).1 = .ready outcome) :
    s.read n = (outcome, (s.poll n).2) ∧ s.awake.read n = (outcome, (s.poll n).2.awake) ∧
      s.pauses = pausesAfter (s.poll n).2 outcome := by
  match s with
  | .pending :: rest => cases h
  | [] | .failure _ :: _ =>
    cases h
    exact ⟨rfl, rfl, rfl⟩
  | .data bytes limit :: rest =>
    have houtcome : .ok (give bytes limit rest n).1 = outcome := Poll.ready.inj h
    rw [← houtcome]
    refine ⟨rfl, ?_, ?_⟩
    · show (Except.ok (give bytes limit (awake rest) n).1, (give bytes limit (awake rest) n).2) = _
      rw [give_awake]
      rfl
    · by_cases hend : bytes = [] ∨ limit = some 0
      · rw [pauses, if_pos hend, give_end rest n hend, pausesAfter]
      · rw [pauses, if_neg hend]
        rw [not_or] at hend
        obtain ⟨hgiven, -⟩ := delivered_give rest hn hend.1 hend.2
        obtain ⟨b, data, hdata⟩ := List.exists_cons_of_ne_nil hgiven
        rw [hdata]
        exact (pauses_give rest hn hend.2).symm

end Script

/-! ### Polls -/

def Poll.value? {α : Type} : Poll α → Option α
  | .pending => none
  | .ready value => some value

namespace ChunkStream

/-- The chunk reader in the same place over a reader that is always ready, when so many
    bytes have been read: a stream does not count them. -/
def awake (s : ChunkStream) (bytesRead : Nat) : ChunkReader Script :=
  ⟨s.source.awake, s.chunker, s.ready, bytesRead, s.finished⟩

/-- How often the reader is still found not to be ready. -/
def pauses (s : ChunkStream) : Nat := if s.finished then 0 else s.source.pauses

/-- What a poll that gives nothing leaves: what has been read is held, and the rest is
    still to be read. -/
structure Keeps (s s' : ChunkStream) : Prop where
  ready : s.ready = [] ∧ s'.ready = []
  held : ∃ data, s.chunker.view.push data = ([], s'.chunker.view) ∧
    s.source.delivered = (data ++ s'.source.delivered.1, s'.source.delivered.2)

theorem Keeps.trans {s s' s'' : ChunkStream} (h : s.Keeps s') (h' : s'.Keeps s'') : s.Keeps s'' := by
  obtain ⟨data, hheld, hdelivered⟩ := h.held
  obtain ⟨more, hheld', hdelivered'⟩ := h'.held
  refine ⟨⟨h.ready.1, h'.ready.2⟩, data ++ more, ?_, ?_⟩
  · rw [Cutter.push_append, hheld, hheld']
    rfl
  · rw [hdelivered, hdelivered', List.append_assoc]

theorem keeps_of_data {s : ChunkStream} {b : UInt8} {data : Bytes} {chunker : Chunker}
    (hready : s.ready = []) (hdata : (s.source.poll bufferSize).1 = .ready (.ok (b :: data)))
    (hpush : s.chunker.push (b :: data) = ([], chunker)) :
    s.Keeps ⟨(s.source.poll bufferSize).2, chunker, [], false⟩ := by
  refine ⟨⟨hready, rfl⟩, b :: data, ?_, ?_⟩
  · obtain ⟨hchunks, hview⟩ := s.chunker.push_view (b :: data)
    rw [hpush] at hchunks hview
    exact Prod.ext hchunks.symm hview.symm
  · obtain ⟨hread, -⟩ := Script.poll_ready bufferSize_pos hdata
    have hdelivered := s.source.delivered_read bufferSize_pos
    rwa [hread] at hdelivered

theorem keeps_of_interrupted {s : ChunkStream} {e : IoError} (hready : s.ready = [])
    (herror : (s.source.poll bufferSize).1 = .ready (.error e)) (hinterrupted : e.kind = .interrupted) :
    s.Keeps { s with source := (s.source.poll bufferSize).2 } := by
  refine ⟨⟨hready, hready⟩, [], rfl, ?_⟩
  obtain ⟨hread, -⟩ := Script.poll_ready bufferSize_pos herror
  have hdelivered := s.source.delivered_read bufferSize_pos
  rw [hread] at hdelivered
  simp only [hinterrupted, if_true] at hdelivered
  exact hdelivered

/-- **One poll.**  Either the reader is not ready, and the chunk reader in its place
    goes on where the stream does; or the poll does what a call to it does. -/
theorem poll_cases (s : ChunkStream) (bytesRead : Nat) :
    (s.poll.1 = .pending ∧ s.pauses = s.poll.2.pauses + 1 ∧ s.Keeps s.poll.2 ∧
      ∃ more, (s.awake bytesRead).next = (s.poll.2.awake more).next) ∨
    ∃ item more, s.poll.1 = .ready item ∧ s.pauses = s.poll.2.pauses ∧
      (s.awake bytesRead).next = (item, s.poll.2.awake more) := by
  fun_induction poll s generalizing bytesRead with
  | case1 s chunk ready hready =>
    refine Or.inr ⟨_, bytesRead, rfl, rfl, ?_⟩
    rw [ChunkReader.next]
    simp only [awake, hready]
  | case2 s hready hfinished =>
    refine Or.inr ⟨_, bytesRead, rfl, rfl, ?_⟩
    rw [ChunkReader.next]
    simp only [awake, hready, hfinished, if_true]
  | case3 s hready hfinished hpending =>
    obtain ⟨hawake, hpauses, hdelivered⟩ := Script.poll_pending hpending
    refine Or.inl ⟨rfl, ?_, ⟨⟨hready, hready⟩, [], rfl, hdelivered⟩, bytesRead, ?_⟩
    · rw [pauses, pauses, if_neg hfinished, if_neg hfinished, hpauses]
    · rw [awake, awake, hawake]
  | case4 s hready hfinished hend last chunker hlast =>
    obtain ⟨-, hread, hpauses⟩ := Script.poll_ready bufferSize_pos hend
    change Reader.read (s.awake bytesRead).source bufferSize = _ at hread
    refine Or.inr ⟨_, bytesRead, rfl, ?_, ?_⟩
    · rw [pauses, pauses, if_neg hfinished, if_pos rfl, hpauses, Script.pausesAfter]
    · rw [ChunkReader.next_of_read hready (Bool.eq_false_iff.mpr hfinished), hread]
      simp only [awake, hlast, hready]
  | case5 s hready hfinished b data hdata ready chunker hpush ih =>
    obtain ⟨-, hread, hpauses⟩ := Script.poll_ready bufferSize_pos hdata
    change Reader.read (s.awake bytesRead).source bufferSize = _ at hread
    have hnext : (s.awake bytesRead).next =
        (awake ⟨(s.source.poll bufferSize).2, chunker, ready, false⟩
          (bytesRead + (b :: data).length)).next := by
      rw [ChunkReader.next_of_read hready (Bool.eq_false_iff.mpr hfinished), hread]
      simp only [awake, hpush]
    have hleft : s.pauses = pauses ⟨(s.source.poll bufferSize).2, chunker, ready, false⟩ := by
      rw [pauses, if_neg hfinished, hpauses]
      rfl
    rw [hnext, hleft]
    obtain ⟨hpending, hcount, hkeeps, hmore⟩ | hgiven := ih (bytesRead + (b :: data).length)
    -- a poll that found a complete chunk would have given it
    · obtain rfl : ready = [] := hkeeps.ready.1
      exact Or.inl ⟨hpending, hcount, (keeps_of_data hready hdata hpush).trans hkeeps, hmore⟩
    · exact Or.inr hgiven
  | case6 s hready hfinished e herror hinterrupted ih =>
    obtain ⟨-, hread, hpauses⟩ := Script.poll_ready bufferSize_pos herror
    change Reader.read (s.awake bytesRead).source bufferSize = _ at hread
    have hnext : (s.awake bytesRead).next =
        (awake { s with source := (s.source.poll bufferSize).2 } bytesRead).next := by
      rw [ChunkReader.next_of_read hready (Bool.eq_false_iff.mpr hfinished), hread]
      simp only [awake, hinterrupted, hready, hfinished, if_true]
    have hleft : s.pauses = pauses { s with source := (s.source.poll bufferSize).2 } := by
      rw [pauses, pauses, if_neg hfinished, if_neg hfinished, hpauses, Script.pausesAfter,
        if_pos hinterrupted]
    rw [hnext, hleft]
    obtain ⟨hpending, hcount, hkeeps, hmore⟩ | hgiven := ih bytesRead
    · have hheld := keeps_of_interrupted hready herror hinterrupted
      exact Or.inl ⟨hpending, hcount, hheld.trans hkeeps, hmore⟩
    · exact Or.inr hgiven
  | case7 s hready hfinished e herror hfails =>
    obtain ⟨-, hread, hpauses⟩ := Script.poll_ready bufferSize_pos herror
    change Reader.read (s.awake bytesRead).source bufferSize = _ at hread
    refine Or.inr ⟨_, bytesRead, rfl, ?_, ?_⟩
    · rw [pauses, pauses, if_neg hfinished, if_pos rfl, hpauses, Script.pausesAfter,
        if_neg hfails]
    · rw [ChunkReader.next_of_read hready (Bool.eq_false_iff.mpr hfinished), hread]
      simp only [awake, hready, hfails, if_false]

/-! ### Runs -/

def after (s : ChunkStream) : Nat → ChunkStream
  | 0 => s
  | polls + 1 => s.poll.2.after polls

theorem after_succ (s : ChunkStream) (polls : Nat) : s.after (polls + 1) = (s.after polls).poll.2 := by
  induction polls generalizing s with
  | zero => rfl
  | succ polls ih => exact ih s.poll.2

def answers (s : ChunkStream) (polls : Nat) : List (Option (Except ChunkError Chunk)) :=
  (List.range polls).filterMap fun i => (s.after i).poll.1.value?

def unready (s : ChunkStream) (polls : Nat) : Nat :=
  (List.range polls).countP fun i => (s.after i).poll.1.value?.isNone

variable {s : ChunkStream} {polls : Nat}

theorem run_pending (h : (s.after polls).poll.1 = .pending) :
    s.answers (polls + 1) = s.answers polls ∧ s.unready (polls + 1) = s.unready polls + 1 := by
  constructor
  · simp only [answers, List.range_succ, List.filterMap_append, List.filterMap_cons, h, Poll.value?,
      List.filterMap_nil, List.append_nil]
  · rw [unready, List.range_succ, List.countP_append, List.countP_singleton, h]
    rfl

theorem run_ready {item : Option (Except ChunkError Chunk)}
    (h : (s.after polls).poll.1 = .ready item) :
    s.answers (polls + 1) = s.answers polls ++ [item] ∧ s.unready (polls + 1) = s.unready polls := by
  constructor
  · simp only [answers, List.range_succ, List.filterMap_append, List.filterMap_cons, h, Poll.value?,
      List.filterMap_nil]
  · rw [unready, List.range_succ, List.countP_append, List.countP_singleton, h]
    rfl

theorem mem_answers {item : Option (Except ChunkError Chunk)} :
    item ∈ s.answers polls ↔ ∃ i < polls, (s.after i).poll.1 = .ready item := by
  rw [answers, List.mem_filterMap]
  refine exists_congr fun i => and_congr List.mem_range ?_
  cases (s.after i).poll.1 <;> simp [Poll.value?]

theorem length_answers (s : ChunkStream) (polls : Nat) :
    (s.answers polls).length + s.unready polls = polls := by
  induction polls with
  | zero => rfl
  | succ polls ih =>
    cases h : (s.after polls).poll.1 with
    | pending =>
      obtain ⟨hanswers, hunready⟩ := run_pending h
      rw [hanswers, hunready]
      omega
    | ready item =>
      obtain ⟨hanswers, hunready⟩ := run_ready h
      rw [hanswers, hunready, List.length_append, List.length_singleton]
      omega

/-- **Any number of polls.**  The stream stands where the chunk reader stands after as
    many calls as the polls have given answers, and they have given the same. -/
theorem exists_awake_after {r : ChunkReader Script} {bytesRead : Nat}
    (hstart : r.next = (s.awake bytesRead).next) (polls : Nat) :
    s.answers polls = r.answers (s.answers polls).length ∧
      s.unready polls + (s.after polls).pauses = s.pauses ∧
      ∃ more, (r.after (s.answers polls).length).next = ((s.after polls).awake more).next := by
  -- a poll that finds the reader not ready moves the stream alone, any other moves both
  induction polls with
  | zero => exact ⟨rfl, Nat.zero_add _, bytesRead, hstart⟩
  | succ polls ih =>
    obtain ⟨hgiven, hpauses, more, hnext⟩ := ih
    rw [after_succ]
    obtain ⟨hpending, hcount, -, more', hmore⟩ | ⟨item, more', hready, hcount, hmore⟩ :=
      (s.after polls).poll_cases more
    · obtain ⟨hanswers, hunready⟩ := run_pending hpending
      rw [hanswers, hunready]
      exact ⟨hgiven, by omega, more', hnext.trans hmore⟩
    · obtain ⟨hanswers, hunready⟩ := run_ready hready
      rw [hmore] at hnext
      rw [hanswers, hunready, List.length_append, List.length_singleton]
      refine ⟨?_, by omega, more', ?_⟩
      · rw [ChunkReader.answers_succ, hnext, ← hgiven]
      · rw [ChunkReader.after_succ, hnext]

/-! ### The end -/

theorem poll_of_finished (hready : s.ready = []) (hfinished : s.finished = true) :
    s.poll = (.ready none, s) := by
  rw [poll]
  simp only [hready, hfinished, if_true]

/-- A poll that gives nothing finds the end, or was made after it. -/
theorem finished_poll (h : s.poll.1 = .ready none) : s.poll.2.ready = [] ∧ s.poll.2.finished = true := by
  obtain ⟨hpending, -⟩ | ⟨item, more, hready, -, hnext⟩ := s.poll_cases 0
  · cases hpending.symm.trans h
  · have hnone : item = none := Poll.ready.inj (hready.symm.trans h)
    have hgiven (chunk : Chunk) : (s.awake 0).next.1 ≠ some (.ok chunk) := by
      rw [hnext, hnone]
      exact (Option.some_ne_none _).symm
    have hfinished := ChunkReader.finished_next hgiven
    rwa [hnext] at hfinished

theorem after_of_finished (hready : (s.after polls).ready = [])
    (hfinished : (s.after polls).finished = true) (more : Nat) :
    s.after (polls + more) = s.after polls := by
  induction more with
  | zero => rfl
  | succ more ih => rw [← Nat.add_assoc, after_succ, ih, poll_of_finished hready hfinished]

/-- What the polls of a stream show beside the calls to a chunk reader.  Those that
    find the reader ready give what as many calls give; each pause costs one poll more
    and keeps the place; the end is reached, and from then on nothing changes. -/
structure GivesAs (s : ChunkStream) (r : ChunkReader Script) : Prop where
  answers : ∀ polls, s.answers polls = r.answers (s.answers polls).length
  unready : ∀ polls, s.unready polls + (s.after polls).pauses = s.pauses
  keeps : ∀ polls, (s.after polls).poll.1 = .pending → (s.after polls).Keeps (s.after (polls + 1))
  ends : ∃ polls, (s.after polls).poll.1 = .ready none
  ended : ∀ polls, (s.after polls).poll.1 = .ready none → ∀ more, polls < more →
    (s.after more).poll = (.ready none, s.after more) ∧ s.unready more = s.pauses

/-- **A chunk stream gives what a chunk reader gives.**  However often and wherever the
    reader is not ready, the polls that find it ready give, one after the other, what
    the calls to a chunk reader give over a reader that does the same and is always
    ready.  Each pause before the end costs one poll and nothing else. -/
theorem polls_give_as_calls (p : Params) (script : Script) :
    (start p script).GivesAs (ChunkReader.start p script.awake) := by
  have hstart : (ChunkReader.start p script.awake).next = ((start p script).awake 0).next := rfl
  have hrun := exists_awake_after hstart
  refine ⟨fun polls => (hrun polls).1, fun polls => (hrun polls).2.1, ?_, ?_, ?_⟩
  · intro polls hpending
    obtain ⟨-, -, hkeeps, -⟩ | ⟨item, more, hready, -⟩ := ((start p script).after polls).poll_cases 0
    · rwa [after_succ]
    · cases hpending.symm.trans hready
  · have hyields := ChunkReader.yields_of_steady p script.awake
    -- so many polls have given one answer more than there are chunks and failures
    let last := (ChunkReader.expected p script.awake.delivered).length
    obtain ⟨hgiven, hcount, -⟩ := hrun ((start p script).pauses + last + 1)
    have hlength := (start p script).length_answers ((start p script).pauses + last + 1)
    have hnone : none ∈ (start p script).answers ((start p script).pauses + last + 1) := by
      rw [hgiven, ChunkReader.answers, List.mem_map]
      refine ⟨last, List.mem_range.mpr (by omega), ?_⟩
      exact (hyields.given last).trans (List.getElem?_eq_none (Nat.le_refl _))
    obtain ⟨i, -, hi⟩ := mem_answers.mp hnone
    exact ⟨i, hi⟩
  · intro polls hnone more hmore
    obtain ⟨hready, hfinished⟩ := finished_poll hnone
    rw [← after_succ] at hready hfinished
    obtain ⟨k, rfl⟩ := Nat.exists_eq_add_of_le hmore
    have hsame := after_of_finished hready hfinished k
    obtain ⟨-, hcount, -⟩ := hrun (polls + 1 + k)
    rw [hsame, pauses, if_pos hfinished] at hcount
    rw [Nat.succ_eq_add_one, hsame]
    exact ⟨poll_of_finished hready hfinished, hcount⟩

end ChunkStream

end DedupArchive
