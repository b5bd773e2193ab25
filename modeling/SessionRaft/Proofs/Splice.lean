/-
What a log says, as a list of entries, and what merging received entries into
it does to that list: entries that are there already stay, and from the first
other one on the received entries replace what stood there.
-/
import SessionRaft.Node.Replication
import SessionRaft.Proofs.FaithfulLog

namespace SessionRaft

/-- The term of the entry at an index, 0 if there is no entry. -/
def termOf (entries : List LogEntry) (index : Nat) : Nat :=
  if index = 0 then 0 else (entries[index - 1]?.map LogEntry.term).getD 0

/-- The term of the last entry, 0 if there is none. -/
def lastTermOf (entries : List LogEntry) : Nat :=
  termOf entries entries.length

@[simp] theorem termOf_zero (entries : List LogEntry) :
    termOf entries 0 = 0 := rfl

theorem termOf_succ (entries : List LogEntry) (place : Nat) :
    termOf entries (place + 1) =
      (entries[place]?.map LogEntry.term).getD 0 := rfl

theorem termOf_succ_of_getElem? {entries : List LogEntry} {place : Nat}
    {entry : LogEntry} (hentry : entries[place]? = some entry) :
    termOf entries (place + 1) = entry.term := by
  simp [termOf_succ, hentry]

/-- Lists that agree up to a count agree up to any smaller one. -/
theorem take_eq_of_take_eq {α : Type} {first second : List α}
    {count larger : Nat} (htake : first.take larger = second.take larger)
    (hle : count ≤ larger) : first.take count = second.take count := by
  have heq := congrArg (List.take count) htake
  rwa [List.take_take, List.take_take, Nat.min_eq_left hle] at heq

theorem getElem?_eq_of_take_eq {α : Type} {first second : List α}
    {count place : Nat} (htake : first.take count = second.take count)
    (hplace : place < count) : first[place]? = second[place]? := by
  rw [← List.getElem?_take_of_lt hplace, htake,
    List.getElem?_take_of_lt hplace]

theorem length_le_of_take_eq {α : Type} {first second : List α} {count : Nat}
    (htake : first.take count = second.take count)
    (hcount : count ≤ second.length) : count ≤ first.length := by
  have hlength := congrArg List.length htake
  rw [List.length_take, List.length_take] at hlength
  omega

theorem termOf_eq_of_take_eq {first second : List LogEntry} {index : Nat}
    (htake : first.take index = second.take index) :
    termOf first index = termOf second index := by
  cases index with
  | zero => rfl
  | succ place =>
      rw [termOf_succ, termOf_succ,
        getElem?_eq_of_take_eq htake (Nat.lt_succ_self place)]

/-- From the place `previous` on, `entries` hold entries of the same terms as
those received. -/
def Matches (entries : List LogEntry) (previous : Nat)
    (received : List LogEntry) : Prop :=
  ∀ offset entry, received[offset]? = some entry →
    ∃ own, entries[previous + offset]? = some own ∧ own.term = entry.term

theorem matches_nil (entries : List LogEntry) (previous : Nat) :
    Matches entries previous [] := by
  intro offset entry hentry
  simp at hentry

theorem matches_cons {entries received : List LogEntry} {previous : Nat}
    {own first : LogEntry} (hown : entries[previous]? = some own)
    (hterm : own.term = first.term)
    (hreceived : Matches entries (previous + 1) received) :
    Matches entries previous (first :: received) := by
  intro offset entry hentry
  cases offset with
  | zero =>
      simp only [List.getElem?_cons_zero, Option.some.injEq] at hentry
      exact ⟨own, hown, hentry ▸ hterm⟩
  | succ offset =>
      rw [List.getElem?_cons_succ] at hentry
      obtain ⟨other, hother, heq⟩ := hreceived offset entry hentry
      exact ⟨other, by rwa [Nat.add_assoc, Nat.add_comm 1 offset] at hother, heq⟩

theorem matches_length {entries received : List LogEntry} {previous : Nat}
    (hprevious : previous ≤ entries.length)
    (hmatches : Matches entries previous received) :
    previous + received.length ≤ entries.length := by
  rcases received.eq_nil_or_concat with rfl | ⟨init, last, hsplit⟩
  · exact hprevious
  · rw [List.concat_eq_append] at hsplit
    subst hsplit
    obtain ⟨own, hown, -⟩ := hmatches init.length last (by simp)
    obtain ⟨hplace, -⟩ := List.getElem?_eq_some_iff.mp hown
    simp only [List.length_append, List.length_singleton]
    omega

/-- The result of merging received entries that join on to the place
`previous`, with whatever part of the work was done before a failure.  Nothing
up to the commit index is replaced. -/
def Spliced (commitIndex : Nat) (entries : List LogEntry) (previous : Nat)
    (received result : List LogEntry) : Prop :=
  result = entries ∨
    ∃ held first rest taken, received = held ++ first :: rest ∧
      Matches entries previous held ∧
      (∀ own, entries[previous + held.length]? = some own →
        own.term ≠ first.term) ∧
      (entries.length ≤ previous + held.length ∨
        commitIndex ≤ previous + held.length) ∧
      taken <+: first :: rest ∧
      result = entries.take (previous + held.length) ++ taken

theorem spliced_cons {commitIndex previous : Nat}
    {entries received result : List LogEntry} {own first : LogEntry}
    (hown : entries[previous]? = some own) (hterm : own.term = first.term)
    (hreceived :
      Spliced commitIndex entries (previous + 1) received result) :
    Spliced commitIndex entries previous (first :: received) result := by
  rcases hreceived with hsame | ⟨held, next, rest, taken, hsplit, hheld,
    hconflict, hcommit, htaken, hresult⟩
  · exact Or.inl hsame
  · have hlength : previous + (first :: held).length =
        previous + 1 + held.length := by
      simp only [List.length_cons]
      omega
    refine Or.inr ⟨first :: held, next, rest, taken, by rw [hsplit]; rfl,
      matches_cons hown hterm hheld, ?_, ?_, htaken, ?_⟩
    · rwa [hlength]
    · rwa [hlength]
    · rwa [hlength]

/-- What is committed stays as it is. -/
theorem spliced_committed {commitIndex previous : Nat}
    {entries received result : List LogEntry}
    (hcommit : commitIndex ≤ entries.length)
    (hspliced : Spliced commitIndex entries previous received result) :
    result.take commitIndex = entries.take commitIndex := by
  rcases hspliced with rfl | ⟨held, first, rest, taken, -, -, -, hguard, -, rfl⟩
  · rfl
  · have hlength : commitIndex ≤
        (entries.take (previous + held.length)).length := by
      rw [List.length_take]
      omega
    rw [List.take_append_of_le_length hlength, List.take_take]
    rw [List.length_take] at hlength
    congr 1
    omega

/-- Splicing leaves everything up to the place it starts at. -/
theorem spliced_take {commitIndex previous : Nat}
    {entries received result : List LogEntry}
    (hprevious : previous ≤ entries.length)
    (hspliced : Spliced commitIndex entries previous received result) :
    result.take previous = entries.take previous := by
  -- It is as if everything in front of that place were committed.
  have hguarded : Spliced previous entries previous received result := by
    refine hspliced.imp_right ?_
    rintro ⟨held, first, rest, taken, hsplit, hheld, hconflict, -, hdone⟩
    exact ⟨held, first, rest, taken, hsplit, hheld, hconflict,
      Or.inr (Nat.le_add_right _ _), hdone⟩
  exact spliced_committed hprevious hguarded

theorem spliced_prefix {commitIndex previous : Nat}
    {entries received result : List LogEntry}
    (hprevious : previous ≤ entries.length)
    (hspliced : Spliced commitIndex entries previous received result) :
    previous ≤ result.length ∧
      termOf result previous = termOf entries previous :=
  have htake := spliced_take hprevious hspliced
  ⟨length_le_of_take_eq htake hprevious, termOf_eq_of_take_eq htake⟩

/-- Splicing adds nothing but what was received. -/
theorem mem_of_spliced {commitIndex previous : Nat}
    {entries received result : List LogEntry} {entry : LogEntry}
    (hspliced : Spliced commitIndex entries previous received result)
    (hentry : entry ∈ result) : entry ∈ entries ∨ entry ∈ received := by
  rcases hspliced with rfl | ⟨held, first, rest, taken, rfl, -, -, -, htaken,
    rfl⟩
  · exact Or.inl hentry
  · rcases List.mem_append.mp hentry with hentry | hentry
    · exact Or.inl (List.mem_of_mem_take hentry)
    · exact Or.inr (List.mem_append_right _ (htaken.subset hentry))

namespace FaithfulLog

variable {L : Type} [LogStore L] [FaithfulLog L] {steady : Prop}

def entries (log : L) : List LogEntry := (memory log).entries

/-- The term and the vote that a restart finds. -/
def stored (log : L) : Nat × Option NodeId :=
  ((memory log).term, (memory log).votedFor)

theorem lastIndex_eq_length {log : L} (hlog : Sound log) :
    LogStore.lastIndex log = (entries log).length :=
  lastIndex_eq hlog

theorem get?_succ {log : L} (hlog : Sound log) (place : Nat) :
    LogStore.get? log (place + 1) = (entries log)[place]? := by
  rw [get?_eq hlog]
  simp [MemoryLog.get?, entries]

/-- Logs give the same entries as far as they agree. -/
theorem get?_eq_of_take_eq {first second : L} (hfirst : Sound first)
    (hsecond : Sound second) {count index : Nat}
    (htake : (entries first).take count = (entries second).take count)
    (hindex : index ≤ count) :
    LogStore.get? first index = LogStore.get? second index := by
  cases index with
  | zero =>
      rw [get?_eq hfirst, get?_eq hsecond]
      rfl
  | succ place =>
      rw [get?_succ hfirst, get?_succ hsecond,
        getElem?_eq_of_take_eq htake hindex]

theorem termAt_eq_termOf {log : L} (hlog : Sound log) (index : Nat) :
    LogStore.termAt log index = termOf (entries log) index := by
  cases index with
  | zero => rfl
  | succ place =>
      simp only [LogStore.termAt, Nat.succ_ne_zero, ↓reduceIte,
        get?_succ hlog, termOf_succ]
      cases (entries log)[place]? <;> rfl

theorem lastTerm_eq_lastTermOf {log : L} (hlog : Sound log) :
    LogStore.lastTerm log = lastTermOf (entries log) := by
  have hlast : (memory log).entries.getLast? =
      (entries log)[(entries log).length - 1]? := List.getLast?_eq_getElem?
  rw [lastTerm_eq hlog, MemoryLog.lastTerm, hlast, lastTermOf]
  cases hlength : (entries log).length with
  | zero => simp [List.length_eq_zero_iff.mp hlength]
  | succ count =>
      simp only [Nat.add_sub_cancel, termOf_succ]
      cases (entries log)[count]? <;> rfl

theorem collect_eq {log : L} (hlog : Sound log) (count place : Nat) :
    LogStore.collect log count (place + 1) =
      ((entries log).drop place).take count := by
  induction count generalizing place with
  | zero => simp [LogStore.collect]
  | succ count ih =>
      simp only [LogStore.collect, get?_succ hlog]
      cases hentry : (entries log)[place]? with
      | none =>
          rw [List.drop_eq_nil_of_le (List.getElem?_eq_none_iff.mp hentry)]
          rfl
      | some entry =>
          obtain ⟨hplace, hget⟩ := List.getElem?_eq_some_iff.mp hentry
          simp only [ih]
          rw [List.drop_eq_getElem_cons hplace, List.take_succ_cons, hget]

theorem entriesFrom_eq {log : L} (hlog : Sound log) (place limit : Nat) :
    LogStore.entriesFrom log (place + 1) limit =
      ((entries log).drop place).take limit := by
  have hstart : max (place + 1) 1 = place + 1 := Nat.max_eq_left (by omega)
  simp only [LogStore.entriesFrom, hstart, collect_eq hlog,
    lastIndex_eq_length hlog]
  have hrest : ((entries log).drop place).length =
      (entries log).length + 1 - (place + 1) := by
    rw [List.length_drop]
    omega
  rw [← hrest, ← List.take_take, List.take_of_length_le (Nat.le_refl _)]

theorem append_cases {log after : L} (hlog : Fit steady log) {term : Nat}
    {operation : Operation} {outcome : Except LogFault Nat}
    (happend : LogStore.append log term operation = (outcome, after)) :
    Fit steady after ∧ stored after = stored log ∧
      ((outcome = .ok ((entries log).length + 1) ∧
          entries after = entries log ++
            [⟨term, (entries log).length + 1, operation⟩]) ∨
        ∃ fault, outcome = .error fault ∧ entries after = entries log) := by
  have hfit := hlog.append term operation
  have hwritten := append_written hlog.sound term operation
  rw [happend] at hfit hwritten
  refine ⟨hfit, ?_⟩
  simp only [stored, entries]
  simp only at hwritten
  generalize memory after = result at hwritten
  cases hwritten with
  | done => exact ⟨rfl, Or.inl ⟨rfl, rfl⟩⟩
  | failed fault => exact ⟨rfl, Or.inr ⟨fault, rfl, rfl⟩⟩

theorem append_done {log after : L} (hlog : Fit steady log) {term index : Nat}
    {operation : Operation}
    (happend : LogStore.append log term operation = (.ok index, after)) :
    Fit steady after ∧ index = (entries log).length + 1 ∧
      entries after = entries log ++
        [⟨term, (entries log).length + 1, operation⟩] := by
  obtain ⟨hafter, -, hcases⟩ := append_cases hlog happend
  rcases hcases with ⟨heq, hentries⟩ | ⟨fault, heq, -⟩
  · exact ⟨hafter, Except.ok.inj heq, hentries⟩
  · simp at heq

theorem append_failed {log after : L} (hlog : Fit steady log) {term : Nat}
    {operation : Operation} {fault : LogFault}
    (happend : LogStore.append log term operation = (.error fault, after)) :
    Fit steady after ∧ entries after = entries log ∧
      stored after = stored log := by
  obtain ⟨hafter, hstored, hcases⟩ := append_cases hlog happend
  rcases hcases with ⟨heq, -⟩ | ⟨fault, -, hentries⟩
  · simp at heq
  · exact ⟨hafter, hentries, hstored⟩

theorem truncateAfter_cases {log after : L} (hlog : Fit steady log) {index : Nat}
    {outcome : Except LogFault Unit}
    (htruncate : LogStore.truncateAfter log index = (outcome, after)) :
    Fit steady after ∧ stored after = stored log ∧
      ((outcome = .ok () ∧ entries after = (entries log).take index) ∨
        ∃ fault, outcome = .error fault ∧ entries after = entries log) := by
  have hfit := hlog.truncateAfter index
  have hwritten := truncateAfter_written hlog.sound index
  rw [htruncate] at hfit hwritten
  refine ⟨hfit, ?_⟩
  simp only [stored, entries]
  simp only at hwritten
  generalize memory after = result at hwritten
  cases hwritten with
  | done => exact ⟨rfl, Or.inl ⟨rfl, rfl⟩⟩
  | failed fault => exact ⟨rfl, Or.inr ⟨fault, rfl, rfl⟩⟩

theorem saveVote_cases {log after : L} (hlog : Fit steady log) {term : Nat}
    {votedFor : Option NodeId} {outcome : Except LogFault Unit}
    (hsave : LogStore.saveVote log term votedFor = (outcome, after)) :
    Fit steady after ∧ entries after = entries log ∧
      ((outcome = .ok () ∧ stored after = (term, votedFor)) ∨
        ∃ fault, outcome = .error fault ∧ stored after = stored log) := by
  have hfit := hlog.saveVote term votedFor
  have hwritten := saveVote_written hlog.sound term votedFor
  rw [hsave] at hfit hwritten
  refine ⟨hfit, ?_⟩
  simp only [stored, entries]
  simp only at hwritten
  generalize memory after = result at hwritten
  cases hwritten with
  | done => exact ⟨rfl, Or.inl ⟨rfl, rfl⟩⟩
  | failed fault => exact ⟨rfl, Or.inr ⟨fault, rfl, rfl⟩⟩

end FaithfulLog

namespace Node

open FaithfulLog

variable {L : Type} [LogStore L] [FaithfulLog L] {steady : Prop}

theorem holds_iff {log : L} (hlog : Sound log) {entry : LogEntry}
    {place : Nat} (hindex : entry.index = place + 1) :
    holds log entry = true ↔
      ∃ own, (entries log)[place]? = some own ∧ own.term = entry.term := by
  simp only [holds, hindex, lastIndex_eq_length hlog, termAt_eq_termOf hlog,
    termOf_succ, decide_eq_true_eq]
  constructor
  · rintro ⟨hplace, hterm⟩
    have hget := List.getElem?_eq_getElem (l := entries log) hplace
    refine ⟨_, hget, ?_⟩
    simpa [hget] using hterm
  · rintro ⟨own, hown, hterm⟩
    obtain ⟨hplace, -⟩ := List.getElem?_eq_some_iff.mp hown
    exact ⟨hplace, by simp [hown, hterm]⟩

/-- Adopting the entry that follows the place `place` drops what stood from
there on; a failure may stop before or after that. -/
theorem adopt_cases {log after : L} (hlog : Fit steady log) {entry : LogEntry}
    {place : Nat} (hindex : entry.index = place + 1)
    (hplace : place ≤ (entries log).length)
    {outcome : Except ErrorKind Unit}
    (hadopt : adopt log entry = (outcome, after)) :
    Fit steady after ∧ stored after = stored log ∧
      ((outcome = .ok () ∧
          entries after = (entries log).take place ++ [entry]) ∨
        outcome = .error .internalError ∧
          (entries after = entries log ∨
            entries after = (entries log).take place)) := by
  -- Truncating comes first, if there is anything to drop.
  have hcut : ∃ cut middle,
      (if entry.index ≤ LogStore.lastIndex log then
        LogStore.truncateAfter log (entry.index - 1)
      else (.ok (), log)) = (cut, middle) ∧
      Fit steady middle ∧ stored middle = stored log ∧
      ((cut = .ok () ∧ entries middle = (entries log).take place) ∨
        ∃ fault, cut = .error fault ∧ entries middle = entries log) := by
    by_cases hle : entry.index ≤ LogStore.lastIndex log
    · rw [if_pos hle, hindex, Nat.add_sub_cancel]
      exact ⟨_, _, rfl, truncateAfter_cases hlog rfl⟩
    · rw [if_neg hle]
      rw [hindex, lastIndex_eq_length hlog.sound] at hle
      refine ⟨_, _, rfl, hlog, rfl, Or.inl ⟨rfl, ?_⟩⟩
      rw [List.take_of_length_le (by omega)]
  obtain ⟨cut, middle, hcut, hmiddle, hstored, hcases⟩ := hcut
  unfold adopt at hadopt
  rw [hcut] at hadopt
  rcases hcases with ⟨rfl, hentries⟩ | ⟨fault, rfl, hentries⟩
  · simp only at hadopt
    have hlength : (entries middle).length = place := by
      rw [hentries, List.length_take]
      omega
    rcases happend : LogStore.append middle entry.term entry.operation with
      ⟨appended, last⟩
    rw [happend] at hadopt
    obtain ⟨hlast, hlastStored, happended⟩ := append_cases hmiddle happend
    rw [hlength, hentries] at happended
    rcases happended with ⟨rfl, hlastEntries⟩ | ⟨fault, rfl, hlastEntries⟩
    · have hentry : (⟨entry.term, place + 1, entry.operation⟩ : LogEntry) =
          entry := by
        rw [← hindex]
      simp only [hindex, ↓reduceIte, Prod.mk.injEq] at hadopt
      obtain ⟨rfl, rfl⟩ := hadopt
      rw [hentry] at hlastEntries
      exact ⟨hlast, hlastStored.trans hstored, Or.inl ⟨rfl, hlastEntries⟩⟩
    · simp only [Prod.mk.injEq] at hadopt
      obtain ⟨rfl, rfl⟩ := hadopt
      exact ⟨hlast, hlastStored.trans hstored,
        Or.inr ⟨rfl, Or.inr hlastEntries⟩⟩
  · simp only [Prod.mk.injEq] at hadopt
    obtain ⟨rfl, rfl⟩ := hadopt
    exact ⟨hmiddle, hstored, Or.inr ⟨rfl, Or.inl hentries⟩⟩

/-- Past the end of the log every received entry is appended, until one cannot
be. -/
theorem merge_past_end {commitIndex : Nat} {log after : L} (hlog : Fit steady log)
    {received : List LogEntry} {outcome : Except ErrorKind Nat}
    (hmerge : merge commitIndex log (entries log).length received =
      (outcome, after)) :
    Fit steady after ∧ stored after = stored log ∧
      ∃ taken, taken <+: received ∧ entries after = entries log ++ taken ∧
        ∀ matched, outcome = .ok matched → taken = received ∧
          matched = (entries log).length + received.length := by
  induction received generalizing log with
  | nil =>
      simp only [merge, Prod.mk.injEq] at hmerge
      obtain ⟨rfl, rfl⟩ := hmerge
      refine ⟨hlog, rfl, [], List.nil_prefix, by simp, ?_⟩
      intro matched hmatched
      simp only [Except.ok.injEq] at hmatched
      exact ⟨rfl, by simp [← hmatched]⟩
  | cons entry received ih =>
      unfold merge at hmerge
      by_cases hindex : entry.index = (entries log).length + 1
      · have hnot : ¬holds log entry = true := by
          rw [holds_iff hlog.sound hindex]
          rintro ⟨own, hown, -⟩
          simp at hown
        have hpast : ¬(entry.index ≤ LogStore.lastIndex log ∧
            entry.index ≤ commitIndex) := by
          rw [lastIndex_eq_length hlog.sound, hindex]
          omega
        rw [if_neg (fun hne => hne hindex), if_neg hnot, if_neg hpast] at hmerge
        rcases hadopt : adopt log entry with ⟨adopted, middle⟩
        rw [hadopt] at hmerge
        obtain ⟨hmiddle, hstored, hcases⟩ :=
          adopt_cases hlog hindex (Nat.le_refl _) hadopt
        rw [List.take_of_length_le (Nat.le_refl _)] at hcases
        rcases hcases with ⟨rfl, hentries⟩ | ⟨rfl, hentries⟩
        · have hlength : entry.index = (entries middle).length := by
            rw [hentries, hindex]
            simp
          simp only [hlength] at hmerge
          obtain ⟨hafter, hafterStored, taken, htaken, hresult, hdone⟩ :=
            ih hmiddle hmerge
          refine ⟨hafter, hafterStored.trans hstored, entry :: taken,
            List.cons_prefix_cons.mpr ⟨rfl, htaken⟩, ?_, ?_⟩
          · rw [hresult, hentries]
            simp
          · intro matched hmatched
            obtain ⟨rfl, hcount⟩ := hdone matched hmatched
            refine ⟨rfl, ?_⟩
            rw [hcount, hentries]
            simp only [List.length_append, List.length_cons, List.length_nil]
            omega
        · simp only [Prod.mk.injEq] at hmerge
          obtain ⟨rfl, rfl⟩ := hmerge
          exact ⟨hmiddle, hstored, [], List.nil_prefix,
            by simpa using hentries, by simp⟩
      · rw [if_pos hindex] at hmerge
        simp only [Prod.mk.injEq] at hmerge
        obtain ⟨rfl, rfl⟩ := hmerge
        exact ⟨hlog, rfl, [], List.nil_prefix, by simp, by simp⟩

/-- Merging an entry that is not held yet replaces what stands from its place
on. -/
theorem merge_replaces {commitIndex : Nat} {log after : L}
    (hlog : Fit steady log) {previous : Nat}
    (hprevious : previous ≤ (entries log).length) {entry : LogEntry}
    {received : List LogEntry} {outcome : Except ErrorKind Nat}
    (hindex : entry.index = previous + 1) (hholds : ¬holds log entry = true)
    (hconflict : ¬(entry.index ≤ LogStore.lastIndex log ∧
      entry.index ≤ commitIndex))
    (hmerge : merge commitIndex log previous (entry :: received) =
      (outcome, after)) :
    Fit steady after ∧ stored after = stored log ∧
      Spliced commitIndex (entries log) previous (entry :: received)
        (entries after) ∧
      ∀ matched, outcome = .ok matched →
        matched = previous + (entry :: received).length ∧
          Matches (entries after) previous (entry :: received) := by
  unfold merge at hmerge
  rw [if_neg (fun hne => hne hindex), if_neg hholds, if_neg hconflict]
    at hmerge
  rw [lastIndex_eq_length hlog.sound, hindex] at hconflict
  have hdiffers : ∀ own, (entries log)[previous]? = some own →
      own.term ≠ entry.term := fun own hown hterm =>
    hholds ((holds_iff hlog.sound hindex).mpr ⟨own, hown, hterm⟩)
  have hspliced : ∀ taken, taken <+: entry :: received →
      Spliced commitIndex (entries log) previous (entry :: received)
        ((entries log).take previous ++ taken) := fun taken htaken =>
    Or.inr ⟨[], entry, received, taken, rfl, matches_nil _ _,
      by simpa using hdiffers,
      by simp only [List.length_nil, Nat.add_zero]; omega,
      htaken, by simp⟩
  rcases hadopt : adopt log entry with ⟨adopted, middle⟩
  rw [hadopt] at hmerge
  obtain ⟨hmiddle, hstored, hcases⟩ :=
    adopt_cases hlog hindex hprevious hadopt
  rcases hcases with ⟨rfl, hentries⟩ | ⟨rfl, hentries⟩
  · have hlength : (entries middle).length = previous + 1 := by
      rw [hentries, List.length_append, List.length_take]
      simp only [List.length_singleton]
      omega
    simp only [hindex, ← hlength] at hmerge
    obtain ⟨hafter, hafterStored, taken, htaken, hresult, hdone⟩ :=
      merge_past_end hmiddle hmerge
    have hall : entries after =
        (entries log).take previous ++ entry :: taken := by
      rw [hresult, hentries]
      simp
    refine ⟨hafter, hafterStored.trans hstored, ?_, ?_⟩
    · rw [hall]
      exact hspliced _ (List.cons_prefix_cons.mpr ⟨rfl, htaken⟩)
    · intro matched hmatched
      obtain ⟨rfl, hcount⟩ := hdone matched hmatched
      constructor
      · rw [hcount, hlength]
        simp only [List.length_cons]
        omega
      · intro offset own hown
        refine ⟨own, ?_, rfl⟩
        have htake : ((entries log).take previous).length = previous := by
          rw [List.length_take]
          omega
        rw [hall, List.getElem?_append_right (by omega), htake,
          Nat.add_sub_cancel_left, hown]
  · simp only [Prod.mk.injEq] at hmerge
    obtain ⟨rfl, rfl⟩ := hmerge
    refine ⟨hmiddle, hstored, ?_, by simp⟩
    rcases hentries with hentries | hentries
    · exact Or.inl hentries
    · rw [hentries]
      simpa using hspliced [] List.nil_prefix

/-- What merging does to the entries, whether or not it comes to its end, and
what holds if it does. -/
theorem merge_cases {commitIndex : Nat} {log after : L} (hlog : Fit steady log)
    {previous : Nat} (hprevious : previous ≤ (entries log).length)
    {received : List LogEntry} {outcome : Except ErrorKind Nat}
    (hmerge : merge commitIndex log previous received = (outcome, after)) :
    Fit steady after ∧ stored after = stored log ∧
      Spliced commitIndex (entries log) previous received (entries after) ∧
      ∀ matched, outcome = .ok matched →
        matched = previous + received.length ∧
          Matches (entries after) previous received := by
  induction received generalizing previous with
  | nil =>
      simp only [merge, Prod.mk.injEq] at hmerge
      obtain ⟨rfl, rfl⟩ := hmerge
      refine ⟨hlog, rfl, Or.inl rfl, ?_⟩
      intro matched hmatched
      simp only [Except.ok.injEq] at hmatched
      exact ⟨by simp [← hmatched], matches_nil _ _⟩
  | cons entry received ih =>
      have hstop : ∀ kind : ErrorKind, ((.error kind, log) :
          Except ErrorKind Nat × L) = (outcome, after) →
          Fit steady after ∧ stored after = stored log ∧
            Spliced commitIndex (entries log) previous (entry :: received)
              (entries after) ∧
            ∀ matched, outcome = .ok matched →
              matched = previous + (entry :: received).length ∧
                Matches (entries after) previous (entry :: received) := by
        intro kind heq
        simp only [Prod.mk.injEq] at heq
        obtain ⟨rfl, rfl⟩ := heq
        exact ⟨hlog, rfl, Or.inl rfl, by simp⟩
      by_cases hindex : entry.index = previous + 1
      · by_cases hholds : holds log entry = true
        · unfold merge at hmerge
          rw [if_neg (fun hne => hne hindex), if_pos hholds, hindex] at hmerge
          obtain ⟨own, hown, hterm⟩ := (holds_iff hlog.sound hindex).mp hholds
          obtain ⟨hplace, -⟩ := List.getElem?_eq_some_iff.mp hown
          obtain ⟨hafter, hstored, hspliced, hdone⟩ := ih hplace hmerge
          refine ⟨hafter, hstored, spliced_cons hown hterm hspliced, ?_⟩
          intro matched hmatched
          obtain ⟨hcount, hmatches⟩ := hdone matched hmatched
          constructor
          · rw [hcount]
            simp only [List.length_cons]
            omega
          · -- The own entry survives, as only later places are replaced.
            rcases hspliced with hsame | ⟨held, next, rest, taken, -, -, -, -,
              -, hresult⟩
            · rw [hsame] at hmatches ⊢
              exact matches_cons hown hterm hmatches
            · refine matches_cons (?_ : _ = some own) hterm hmatches
              rw [hresult, List.getElem?_append_left, List.getElem?_take,
                if_pos (by omega), hown]
              rw [List.length_take]
              omega
        · by_cases hconflict : entry.index ≤ LogStore.lastIndex log ∧
              entry.index ≤ commitIndex
          · unfold merge at hmerge
            rw [if_neg (fun hne => hne hindex), if_neg hholds,
              if_pos hconflict] at hmerge
            exact hstop _ hmerge
          · exact merge_replaces hlog hprevious hindex hholds hconflict hmerge
      · unfold merge at hmerge
        rw [if_pos hindex] at hmerge
        exact hstop _ hmerge

end Node

end SessionRaft
