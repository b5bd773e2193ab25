/-
Pieces of a log that a request carries.  Two logs match if entries of one term
at one place stand after the same entries in both.  Merging a piece of a log
into a log that matches it keeps whatever the two have in common.
-/
import SessionRaft.Proofs.Standing

namespace SessionRaft

/-- The beginning of a beginning. -/
theorem take_eq_of_isPrefix {α : Type} {first second : List α}
    (hinit : first <+: second) {count : Nat} (hcount : count ≤ first.length) :
    first.take count = second.take count := by
  obtain ⟨rest, rfl⟩ := hinit
  rw [List.take_append_of_le_length hcount]

theorem getElem?_of_isPrefix {α : Type} {first second : List α}
    (hinit : first <+: second) {place : Nat} {value : α}
    (hget : first[place]? = some value) : second[place]? = some value := by
  obtain ⟨rest, rfl⟩ := hinit
  obtain ⟨hplace, -⟩ := List.getElem?_eq_some_iff.mp hget
  rwa [List.getElem?_append_left hplace]

/-- Two beginnings of one list that are equally long are equal. -/
theorem eq_of_isPrefix_of_length {α : Type} {first second whole : List α}
    (hfirst : first <+: whole) (hsecond : second <+: whole)
    (hlength : first.length = second.length) : first = second := by
  rw [List.prefix_iff_eq_take.mp hfirst, List.prefix_iff_eq_take.mp hsecond,
    hlength]

/-- Entries of one term at one place stand after the same entries. -/
def LogsMatch (first second : List LogEntry) : Prop :=
  ∀ ⦃place : Nat⦄ ⦃left right : LogEntry⦄, first[place]? = some left →
    second[place]? = some right → left.term = right.term →
      first.take (place + 1) = second.take (place + 1)

/-- A request with entries carries a piece of a log, and tells the term of the
entry in front of it. -/
structure Segment (source : List LogEntry) (request : AppendRequest) :
    Prop where
  previous : request.prevLogIndex ≤ source.length
  joins : request.prevLogTerm = termOf source request.prevLogIndex
  carries : request.entries <+: source.drop request.prevLogIndex

/-- What a merge does to a log: it stays as it is, or it is cut where it first
differs from the leader's log and goes on as that one does. -/
def Rejoined (log canon result : List LogEntry) : Prop :=
  result = log ∨ ∃ cut, cut ≤ log.length ∧ log.take cut = canon.take cut ∧
    (∀ own other, log[cut]? = some own → canon[cut]? = some other →
      own.term ≠ other.term) ∧
    log.take cut <+: result ∧ result <+: canon

variable {log source larger first second : List LogEntry}
  {request : AppendRequest}

/-- Logs that match agree up to an index at which they hold entries of one
term. -/
theorem LogsMatch.agree (hmatch : LogsMatch first second) {index : Nat}
    (hleft : index ≤ first.length) (hright : index ≤ second.length)
    (hterm : termOf first index = termOf second index) :
    first.take index = second.take index := by
  cases index with
  | zero => simp
  | succ place =>
      have hfirstGet := List.getElem?_eq_getElem hleft
      have hsecondGet := List.getElem?_eq_getElem hright
      rw [termOf_succ_of_getElem? hfirstGet,
        termOf_succ_of_getElem? hsecondGet] at hterm
      exact hmatch hfirstGet hsecondGet hterm

/-- What begins two logs in the same way matches. -/
theorem LogsMatch.of_isPrefix (hfirst : first <+: larger)
    (hsecond : second <+: larger) : LogsMatch first second := by
  intro place left right hleft hright _
  obtain ⟨hplace, -⟩ := List.getElem?_eq_some_iff.mp hleft
  obtain ⟨hother, -⟩ := List.getElem?_eq_some_iff.mp hright
  rw [take_eq_of_isPrefix hfirst hplace, take_eq_of_isPrefix hsecond hother]

/-- A piece of a log is one of every log that goes on from there. -/
theorem Segment.mono (hsegment : Segment source request)
    (hinit : source <+: larger) : Segment larger request := by
  refine ⟨Nat.le_trans hsegment.previous hinit.length_le, ?_, ?_⟩
  · rw [hsegment.joins]
    exact termOf_eq_of_take_eq (take_eq_of_isPrefix hinit hsegment.previous)
  · obtain ⟨rest, rfl⟩ := hinit
    rw [List.drop_append_of_le_length hsegment.previous]
    exact hsegment.carries.trans (List.prefix_append _ _)

/-- The request that a leader makes for a peer is a piece of its log, unless it
tries the peer past its end. -/
theorem Standing.segment_appendRequest {σ : Type} {standing : Standing σ}
    {leadership : Leadership} {peer : NodeId}
    (hnext : leadership.nextIndex.getD peer (standing.entries.length + 1) ≤
      standing.entries.length + 1) (limit : Nat) :
    Segment standing.entries
      (standing.appendRequest leadership peer limit) := by
  refine ⟨?_, rfl, List.take_prefix _ _⟩
  simp only [Standing.appendRequest]
  omega

/-- A log that holds what a request carries agrees with the log it is a piece
of, up to the end of the request. -/
theorem Segment.joined (hsegment : Segment source request)
    (hmatch : LogsMatch log source)
    (hprevious : request.prevLogIndex ≤ log.length)
    (hjoin : termOf log request.prevLogIndex = request.prevLogTerm)
    {held : List LogEntry} (hheld : held <+: request.entries)
    (hmatches : Matches log request.prevLogIndex held) :
    request.prevLogIndex + held.length ≤ log.length ∧
      request.prevLogIndex + held.length ≤ source.length ∧
      log.take (request.prevLogIndex + held.length) =
        source.take (request.prevLogIndex + held.length) := by
  have hcarried := hheld.trans hsegment.carries
  have hsourceLength :
      request.prevLogIndex + held.length ≤ source.length := by
    have hle := hcarried.length_le
    have hprev := hsegment.previous
    rw [List.length_drop] at hle
    omega
  rcases held.eq_nil_or_concat with rfl | ⟨init, last, hsplit⟩
  · exact ⟨hprevious, hsourceLength, hmatch.agree hprevious hsegment.previous
      (hjoin.trans hsegment.joins)⟩
  · -- The last entry that is held ties the two logs together.
    rw [List.concat_eq_append] at hsplit
    subst hsplit
    have hlast : (init ++ [last])[init.length]? = some last := by simp
    obtain ⟨own, hown, hterm⟩ := hmatches init.length last hlast
    have hsourceLast :
        source[request.prevLogIndex + init.length]? = some last := by
      have hget := getElem?_of_isPrefix hcarried hlast
      rwa [List.getElem?_drop] at hget
    obtain ⟨hplace, -⟩ := List.getElem?_eq_some_iff.mp hown
    simp only [List.length_append, List.length_singleton] at hsourceLength ⊢
    exact ⟨hplace, hsourceLength, hmatch hown hsourceLast hterm⟩

theorem Segment.rejoined (hsegment : Segment source request)
    (hmatch : LogsMatch log source)
    (hprevious : request.prevLogIndex ≤ log.length)
    (hjoin : termOf log request.prevLogIndex = request.prevLogTerm)
    {commitIndex : Nat} {result : List LogEntry}
    (hspliced : Spliced commitIndex log request.prevLogIndex request.entries
      result) :
    Rejoined log source result := by
  rcases hspliced with rfl | ⟨held, first, rest, taken, hsplit, hheld,
    hconflict, -, htaken, rfl⟩
  · exact Or.inl rfl
  · obtain ⟨hlog, hlength, hagree⟩ := hsegment.joined hmatch hprevious hjoin
      ⟨first :: rest, hsplit.symm⟩ hheld
    have hcarried : first :: rest <+:
        source.drop (request.prevLogIndex + held.length) := by
      have hcarries := hsegment.carries
      rw [hsplit] at hcarries
      obtain ⟨tail, htail⟩ := hcarries
      refine ⟨tail, ?_⟩
      rw [← List.drop_drop, ← htail, List.append_assoc, List.drop_left]
    refine Or.inr ⟨_, hlog, hagree, ?_, List.prefix_append _ _, ?_⟩
    · intro own other hown hother
      have hfirst := getElem?_of_isPrefix hcarried (List.getElem?_cons_zero)
      rw [List.getElem?_drop, Nat.add_zero, hother] at hfirst
      rw [Option.some.inj hfirst]
      exact hconflict own hown
    · rw [hagree]
      obtain ⟨tail, htail⟩ := htaken.trans hcarried
      refine ⟨tail, ?_⟩
      rw [List.append_assoc, htail, List.take_append_drop]

namespace Rejoined

variable {canon result : List LogEntry}

/-- Where a log agrees with the leader's, it stays as it is. -/
theorem agree (hrejoined : Rejoined log canon result) {count : Nat}
    (hcount : count ≤ canon.length) (htake : log.take count = canon.take count) :
    result.take count = canon.take count := by
  rcases hrejoined with rfl | ⟨cut, hcut, hagree, hdiffers, hkept, hinit⟩
  · exact htake
  · have hlogLength := length_le_of_take_eq htake hcount
    have hle : count ≤ cut := by
      refine Nat.le_of_not_lt (fun hlt => ?_)
      have hown := List.getElem?_eq_getElem (show cut < log.length by omega)
      have hother := List.getElem?_eq_getElem
        (show cut < canon.length by omega)
      have hsame := getElem?_eq_of_take_eq htake (show cut < count by omega)
      rw [hown, hother] at hsame
      exact hdiffers _ _ hown hother (congrArg LogEntry.term
        (Option.some.inj hsame))
    have hcutLength : (log.take cut).length = cut := by
      rw [List.length_take]
      omega
    have hresult := hkept.length_le
    exact take_eq_of_isPrefix hinit (by omega)

/-- What matches all that the leader's log comes to goes on matching it. -/
theorem logsMatch (hrejoined : Rejoined log canon result)
    (hlog : LogsMatch log larger) (hcanon : LogsMatch canon larger) :
    LogsMatch result larger := by
  rcases hrejoined with rfl | ⟨_, _, _, _, _, hinit⟩
  · exact hlog
  · intro place left right hleft hright hterm
    obtain ⟨hplace, -⟩ := List.getElem?_eq_some_iff.mp hleft
    rw [take_eq_of_isPrefix hinit hplace]
    exact hcanon (getElem?_of_isPrefix hinit hleft) hright hterm

end Rejoined

end SessionRaft
