/-
What a leader believes of its peers stays within its own log, whatever its
peers answer.
-/
import SessionRaft.Proofs.Lives
import SessionRaft.Proofs.LogMatching

namespace SessionRaft

open FaithfulLog

/-- A leadership that tries no peer past the end of a log of so many entries,
and believes none to hold more of it.  It keeps both for the same peers. -/
structure Leadership.Within (leadership : Leadership) (last : Nat) :
    Prop where
  next : ∀ peer index, leadership.nextIndex.get? peer = some index →
    index ≤ last + 1
  matched : ∀ peer index, leadership.matchIndex.get? peer = some index →
    index ≤ last
  paired : ∀ peer, (leadership.matchIndex.get? peer).isSome =
    (leadership.nextIndex.get? peer).isSome

section Leaderships

variable {leadership : Leadership} {last : Nat}

theorem Leadership.Within.mono (hwithin : leadership.Within last)
    {longer : Nat} (hle : last ≤ longer) : leadership.Within longer :=
  ⟨fun peer index hget =>
      Nat.le_trans (hwithin.next peer index hget) (Nat.succ_le_succ hle),
    fun peer index hget => Nat.le_trans (hwithin.matched peer index hget) hle,
    hwithin.paired⟩

theorem Leadership.Within.getD_le (hwithin : leadership.Within last)
    (peer : NodeId) : leadership.matchIndex.getD peer 0 ≤ last := by
  rw [Table.getD]
  cases hget : leadership.matchIndex.get? peer with
  | none => exact Nat.zero_le last
  | some index => exact hwithin.matched peer index hget

/-- What is noted of a peer's answer stays within the log, whatever the peer
says. -/
theorem Leadership.Within.heed (hwithin : leadership.Within last)
    {peer : NodeId} {next : Nat}
    (hnext : leadership.nextIndex.get? peer = some next)
    (appended : Appended) :
    (leadership.heed peer appended next last).Within last := by
  have hmatched : ∀ other index,
      (leadership.heed peer appended next last).matchIndex.get? other =
        some index → index ≤ last := by
    intro other index hget
    rcases Leadership.heed_matchIndex hget with hold | ⟨-, -, rfl⟩
    · exact hwithin.matched other index hold
    · exact Nat.min_le_right _ _
  refine ⟨fun other index hget => ?_, hmatched, fun other => ?_⟩
  · have htried := hwithin.next peer next hnext
    rcases Leadership.heed_nextIndex hget with
      hold | ⟨-, hle | ⟨matched, hbelieved, rfl⟩⟩
    · exact hwithin.next other index hold
    · omega
    · exact Nat.succ_le_succ (hmatched peer matched hbelieved)
  · have hpaired := hwithin.paired other
    by_cases heq : other = peer
    · subst heq
      rw [hnext] at hpaired
      unfold Leadership.heed
      dsimp only
      split
      · simp [Node.Leadership.progress, Table.get?_insert]
      · simp [Node.Leadership.retreat, Node.Leadership.acknowledge,
          Table.get?_insert, hpaired]
    · unfold Leadership.heed
      dsimp only
      split <;>
        simp [Node.Leadership.progress, Node.Leadership.retreat,
          Node.Leadership.acknowledge, Table.get?_insert, heq, hpaired]

end Leaderships

namespace Standing

variable {σ : Type} [StateMachine σ] {steady : Prop} {input : Input}
  {before after : Standing σ}

/-- Only a leader has beliefs, and they stay within its log. -/
structure Modest (standing : Standing σ) : Prop where
  led : standing.Led
  within : ∀ leadership, standing.leadership = some leadership →
    leadership.Within standing.entries.length

omit [StateMachine σ] in
theorem newLeadership_within (standing : Standing σ) :
    standing.newLeadership.Within standing.entries.length := by
  refine ⟨fun peer index hget => ?_, fun peer index hget => ?_,
    fun peer => ?_⟩
  · simp only [newLeadership, Table.get?_ofKeys,
      Option.ite_none_right_eq_some, Option.some.injEq] at hget
    omega
  · simp only [newLeadership, Table.get?_ofKeys,
      Option.ite_none_right_eq_some, Option.some.injEq] at hget
    omega
  · simp only [newLeadership, Table.get?_ofKeys]
    split <;> rfl

theorem Modest.move (hmodest : before.Modest)
    (hmove : Move steady input before after) : after.Modest := by
  refine ⟨Moves.led hmodest.led (.single hmove),
    fun leadership hleadership => ?_⟩
  cases hmove with
  | adopt _ _ _ | yield _ | retire _ => simp at hleadership
  | lead _ _ =>
      obtain rfl := Option.some.inj hleadership
      exact newLeadership_within before
  | extend _ _ =>
      refine (hmodest.within leadership hleadership).mono ?_
      simp
  | merge _ _ hrole _ _ _ =>
      have hleads := hmodest.led (Option.isSome_of_mem hleadership)
      simp [hrole] at hleads
  | heed _ _ _ hsome hnext =>
      obtain rfl := Option.some.inj hleadership
      exact (hmodest.within _ hsome).heed hnext _
  | round hsome =>
      obtain rfl := Option.some.inj hleadership
      have hwithin := hmodest.within _ hsome
      exact ⟨hwithin.next, hwithin.matched, hwithin.paired⟩
  | _ => exact hmodest.within leadership hleadership

theorem Modest.moves (hmodest : before.Modest)
    (hmoves : Moves steady input before after) : after.Modest := by
  induction hmoves with
  | refl => exact hmodest
  | tail _ hmove ih => exact ih.move hmove

end Standing

namespace Life

variable {L σ : Type} [LogStore L] [FaithfulLog L] [StateMachine σ]
  {life : Life L σ}

theorem Valid.modest (hvalid : life.Valid) (time : Nat) :
    (life.node time).standing.Modest :=
  hvalid.always_standing
    (fun _ _ _ _ _ => ⟨fun hsome => by simp [Standing.start] at hsome,
      fun _ hsome => by simp [Standing.start] at hsome⟩)
    Standing.Modest.moves (fun _ hmodest => ⟨hmodest.led, hmodest.within⟩) time

/-- At all times a leader's beliefs stay within its log. -/
theorem Valid.within (hvalid : life.Valid) (time : Nat)
    {leadership : Leadership}
    (hleadership : (life.node time).leadership = some leadership) :
    leadership.Within (LogStore.lastIndex (life.node time).log) := by
  have hbare := (hvalid.modest time).within leadership.bare
    (by simp [Node.standing, hleadership])
  rw [lastIndex_eq_length (hvalid.proper time).sound]
  exact ⟨hbare.next, hbare.matched, hbare.paired⟩

end Life

end SessionRaft
