/-
The documents of a log and of a vote.  What they describe is what they were
made of, and whatever a document describes has numbers that fit machine words.
-/
import SessionRaft.Proofs.JsonRoundTrip
import SessionRaft.Storage.Document

namespace SessionRaft

/-! ### What can be stored -/

def Operation.InWords : Operation → Prop
  | noOp => True
  | register client timeout timestamp =>
      IsWord client ∧ IsWord timeout ∧ IsWord timestamp
  | keepAlive session commandSequence eventSequence timestamp =>
      IsWord session ∧ IsWord commandSequence ∧ IsSigned eventSequence ∧
        IsWord timestamp
  | unregister session timestamp => IsWord session ∧ IsWord timestamp
  | command session sequence timestamp _ =>
      IsWord session ∧ IsWord sequence ∧ IsWord timestamp

def LogEntry.InWords (entry : LogEntry) : Prop :=
  IsWord entry.term ∧ IsWord entry.index ∧ entry.operation.InWords

def VoteInWords (term : Nat) (votedFor : Option NodeId) : Prop :=
  IsWord term ∧ ∀ id, votedFor = some id → IsWord id

namespace Document

open Json

/-! ### Bytes and texts -/

theorem byteArray_toList (content : ByteArray) :
    content.toList = content.data.toList := by
  have hloop : ∀ start read, ByteArray.toList.loop content start read =
      read.reverse ++ content.data.toList.drop start := by
    intro start read
    induction start, read using ByteArray.toList.loop.induct content with
    | case1 start read hlt ih =>
        have hget : content.get! start =
            content.data.toList.get ⟨start, hlt⟩ := by
          change content.data[start]! = _
          rw [getElem!_pos content.data start hlt]
          rfl
        rw [ByteArray.toList.loop, if_pos hlt, ih, List.reverse_cons,
          List.append_assoc, List.drop_eq_getElem_cons hlt, hget]
        rfl
    | case2 start read hge =>
        rw [ByteArray.toList.loop, if_neg hge,
          List.drop_eq_nil_of_le (Nat.le_of_not_lt hge), List.append_nil]
  rw [ByteArray.toList, hloop]
  rfl

/-- A document is read back from its bytes. -/
theorem decode_of_plain {value : Json} (hplain : value.Plain) :
    decode (encode value) = .ok value := by
  have hbytes : (⟨(encode value).toArray⟩ : ByteArray) =
      (String.ofList value.print).toByteArray := by
    rw [encode, byteArray_toList]
    rfl
  have hspelling : String.fromUTF8? ⟨(encode value).toArray⟩ =
      some (String.ofList value.print) := by
    rw [hbytes, String.fromUTF8?,
      dif_pos (String.ofList value.print).isValidUTF8]
    rfl
  simp only [decode, hspelling, String.toList_ofList, hplain.read?_print]

theorem pointsOf_inj {first second : String} :
    pointsOf first = pointsOf second ↔ first = second := by
  refine ⟨fun heq => ?_, congrArg pointsOf⟩
  have hchars : ∀ c other : Char, c.toNat = other.toNat → c = other := by
    intro c other hc
    rw [← Char.ofNat_toNat c, hc, Char.ofNat_toNat]
  exact String.toList_inj.mp ((List.map_inj_right hchars).mp heq)

theorem isWellFormed_of_isText {text : Text} (htext : IsText text) :
    isWellFormed text = true := by
  rw [isWellFormed, List.all_eq_true]
  intro point hpoint
  have hvalid := htext point hpoint
  simp only [isSurrogate, Bool.not_eq_true', decide_eq_false_iff_not]
  simp only [Nat.isValidChar] at hvalid
  omega

/-! ### Records -/

theorem mapM_map_eq_some {α β γ : Type} {f : β → Option γ} {g : α → β}
    {h : α → γ} {values : List α}
    (hvalues : ∀ value ∈ values, f (g value) = some (h value)) :
    (values.map g).mapM f = some (values.map h) := by
  induction values with
  | nil => rfl
  | cons value values ih =>
      rw [List.forall_mem_cons] at hvalues
      rw [List.map_cons, List.mapM_cons, hvalues.1, ih hvalues.2]
      rfl

/-- The only field of a name is found. -/
theorem member?_record {members : List (String × Json)}
    (hdistinct : (members.map Prod.fst).Nodup) {name : String} {value : Json}
    (hmember : (name, value) ∈ members) :
    member? name (members.map (fun member =>
      (pointsOf member.1, member.2))) = some (some value) := by
  have hfilter : members.filter (fun member => member.1 == name) =
      [(name, value)] := by
    induction members with
    | nil => simp at hmember
    | cons member members ih =>
        rw [List.map_cons, List.nodup_cons] at hdistinct
        obtain ⟨hfresh, hdistinct⟩ := hdistinct
        rcases List.mem_cons.mp hmember with rfl | hmember
        · rw [List.filter_cons, if_pos (beq_self_eq_true name)]
          refine congrArg _ (List.filter_eq_nil_iff.mpr ?_)
          rintro other hother heq
          exact hfresh (List.mem_map.mpr ⟨other, hother, beq_iff_eq.mp heq⟩)
        · rw [List.filter_cons_of_neg, ih hdistinct hmember]
          rintro heq
          exact hfresh (List.mem_map.mpr
            ⟨_, hmember, (beq_iff_eq.mp heq).symm⟩)
  have hnames : ((fun member : Text × Json => member.1 == pointsOf name) ∘
      fun member : String × Json => (pointsOf member.1, member.2)) =
      fun member => member.1 == name := by
    funext member
    rw [Bool.eq_iff_iff]
    simp only [Function.comp_apply, beq_iff_eq, pointsOf_inj]
  rw [member?, List.filter_map, hnames, hfilter]
  rfl

theorem record?_record (members : List (String × Json))
    (hdistinct : (members.map Prod.fst).Nodup) :
    record? (members.map Prod.fst) (record members) =
      some (members.map (fun member => some member.2)) := by
  have hformed : (members.map (fun member =>
      (pointsOf member.1, member.2))).all
        (fun member => isWellFormed member.1) = true := by
    rw [List.all_eq_true, List.forall_mem_map]
    exact fun member _ => isWellFormed_of_isText (isText_pointsOf member.1)
  rw [record, record?, if_pos hformed]
  exact mapM_map_eq_some
    (fun member hmember => member?_record hdistinct hmember)

theorem fields?_record (members : List (String × Json))
    (hdistinct : (members.map Prod.fst).Nodup) :
    fields? (members.map Prod.fst) (record members) =
      some (members.map Prod.snd) := by
  simp only [fields?, record?_record members hdistinct, Option.bind_eq_bind,
    Option.bind_some]
  exact mapM_map_eq_some (fun _ _ => rfl)

theorem plain_record {members : List (String × Json)}
    (hmembers : ∀ member ∈ members, member.2.Plain) :
    (record members).Plain :=
  .object
    (List.forall_mem_map.mpr (fun member _ => isText_pointsOf member.1))
    (List.forall_mem_map.mpr hmembers)

/-! ### Writing and reading documents -/

theorem natural?_number {bound value : Nat} (hvalue : value < bound) :
    (number value).natural? bound = some value := by
  simp only [number, natural?]
  rw [if_pos ⟨Int.natCast_nonneg value, by omega⟩, Int.toNat_natCast]

theorem number?_number {value : Nat} (hvalue : IsWord value) :
    number? (number value) = some value :=
  natural?_number hvalue

theorem signed?_integer {value : Int} (hvalue : IsSigned value) :
    (integer value).signed? signedBound = some value :=
  if_pos hvalue

theorem bytes?_array (items : List Json) :
    bytes? (.array items) =
      items.mapM (fun item => (item.natural? 256).map UInt8.ofNat) := rfl

theorem bytes?_bytes (content : Bytes) :
    bytes? (bytes content) = some content := by
  have hread : (content.map (fun byte => number byte.toNat)).mapM
      (fun item => (item.natural? 256).map UInt8.ofNat) =
        some (content.map id) := by
    refine mapM_map_eq_some (fun byte _ => ?_)
    rw [natural?_number byte.toNat_lt, Option.map_some, UInt8.ofNat_toNat]
    rfl
  rw [bytes, bytes?_array, hread, List.map_id]

theorem plain_bytes (content : Bytes) : (bytes content).Plain :=
  .array (List.forall_mem_map.mpr (fun _ _ => .integer _))

theorem plain_optional (value : Option Nat) : (optional value).Plain := by
  cases value with
  | none => exact .null
  | some value => exact .integer _

theorem optional?_optional {value : Option Nat}
    (hvalue : ∀ number, value = some number → IsWord number) :
    optional? (optional value) = some value := by
  cases value with
  | none => rfl
  | some value =>
      change (number? (number value)).map some = _
      rw [number?_number (hvalue value rfl), Option.map_some]

theorem vote?_of_fields {value term votedFor : Json}
    (hfields : value.record? ["term", "voted_for"] =
      some [some term, some votedFor]) :
    vote? value = do return (← number? term, ← optional? votedFor) := by
  unfold vote?
  rw [hfields]
  rfl

/-- A vote is read back from its document. -/
theorem vote?_ofVote {term : Nat} {votedFor : Option NodeId}
    (hvote : VoteInWords term votedFor) :
    vote? (ofVote term votedFor) = some (term, votedFor) := by
  have hfields : (ofVote term votedFor).record? ["term", "voted_for"] =
      some [some (number term), some (optional votedFor)] :=
    record?_record [("term", number term), ("voted_for", optional votedFor)]
      (by simp)
  rw [vote?_of_fields hfields, number?_number hvote.1,
    optional?_optional hvote.2]
  rfl

theorem plain_ofVote (term : Nat) (votedFor : Option NodeId) :
    (ofVote term votedFor).Plain := by
  apply plain_record
  simp only [List.mem_cons, List.not_mem_nil, or_false, forall_eq_or_imp,
    forall_eq]
  exact ⟨.integer _, plain_optional votedFor⟩

theorem register?_of_fields {body client timeout timestamp : Json}
    (hfields : fields? ["client", "timeout", "timestamp"] body =
      some [client, timeout, timestamp]) :
    register? body = do
      return .register (← number? client) (← number? timeout)
        (← number? timestamp) := by
  unfold register?
  rw [hfields]
  rfl

theorem keepAlive?_of_fields
    {body session commandSequence eventSequence timestamp : Json}
    (hfields : fields? ["session", "command_sequence", "event_sequence",
        "timestamp"] body =
      some [session, commandSequence, eventSequence, timestamp]) :
    keepAlive? body = do
      return .keepAlive (← number? session) (← number? commandSequence)
        (← eventSequence.signed? signedBound) (← number? timestamp) := by
  unfold keepAlive?
  rw [hfields]
  rfl

theorem unregister?_of_fields {body session timestamp : Json}
    (hfields : fields? ["session", "timestamp"] body =
      some [session, timestamp]) :
    unregister? body = do
      return .unregister (← number? session) (← number? timestamp) := by
  unfold unregister?
  rw [hfields]
  rfl

theorem command?_of_fields {body session sequence timestamp payload : Json}
    (hfields : fields? ["session", "sequence", "timestamp", "payload"] body =
      some [session, sequence, timestamp, payload]) :
    command? body = do
      return .command (← number? session) (← number? sequence)
        (← number? timestamp) (← bytes? payload) := by
  unfold command?
  rw [hfields]
  rfl

/-- An operation with fields is told apart by its name. -/
theorem operation?_variant {name : String} (hname : name ≠ "NoOp")
    (members : List (String × Json)) :
    operation? (variant name members) =
      if name = "Register" then register? (record members)
      else if name = "KeepAlive" then keepAlive? (record members)
      else if name = "Unregister" then unregister? (record members)
      else if name = "Command" then command? (record members)
      else none := by
  simp only [variant, record, List.map_cons, List.map_nil, operation?,
    pointsOf_inj, hname, ↓reduceIte]

/-- An operation is read back from its document. -/
theorem operation?_ofOperation {operation : Operation}
    (hoperation : operation.InWords) :
    operation? (ofOperation operation) = some operation := by
  cases operation with
  | noOp => rw [ofOperation, operation?, if_pos rfl]
  | register client timeout timestamp =>
      obtain ⟨hclient, htimeout, htimestamp⟩ := hoperation
      rw [ofOperation, operation?_variant (by decide), if_pos rfl,
        register?_of_fields (fields?_record [("client", number client),
          ("timeout", number timeout), ("timestamp", number timestamp)]
          (by simp)),
        number?_number hclient, number?_number htimeout,
        number?_number htimestamp]
      rfl
  | keepAlive session commandSequence eventSequence timestamp =>
      obtain ⟨hsession, hcommand, hevent, htimestamp⟩ := hoperation
      rw [ofOperation, operation?_variant (by decide), if_neg (by decide),
        if_pos rfl,
        keepAlive?_of_fields (fields?_record [("session", number session),
          ("command_sequence", number commandSequence),
          ("event_sequence", .integer eventSequence),
          ("timestamp", number timestamp)] (by simp)),
        number?_number hsession, number?_number hcommand,
        signed?_integer hevent, number?_number htimestamp]
      rfl
  | unregister session timestamp =>
      obtain ⟨hsession, htimestamp⟩ := hoperation
      rw [ofOperation, operation?_variant (by decide), if_neg (by decide),
        if_neg (by decide), if_pos rfl,
        unregister?_of_fields (fields?_record [("session", number session),
          ("timestamp", number timestamp)] (by simp)),
        number?_number hsession, number?_number htimestamp]
      rfl
  | command session sequence timestamp payload =>
      obtain ⟨hsession, hsequence, htimestamp⟩ := hoperation
      rw [ofOperation, operation?_variant (by decide), if_neg (by decide),
        if_neg (by decide), if_neg (by decide), if_pos rfl,
        command?_of_fields (fields?_record [("session", number session),
          ("sequence", number sequence), ("timestamp", number timestamp),
          ("payload", bytes payload)] (by simp)),
        number?_number hsession, number?_number hsequence,
        number?_number htimestamp, bytes?_bytes]
      rfl

theorem plain_variant {name : String} {members : List (String × Json)}
    (hmembers : ∀ member ∈ members, member.2.Plain) :
    (variant name members).Plain := by
  apply plain_record
  intro member hmember
  rw [List.mem_singleton.mp hmember]
  exact plain_record hmembers

theorem plain_ofOperation (operation : Operation) :
    (ofOperation operation).Plain := by
  cases operation
  case noOp => exact .text (isText_pointsOf _)
  all_goals
    apply plain_variant
    simp only [List.mem_cons, List.not_mem_nil, or_false, forall_eq_or_imp,
      forall_eq]
  case register => exact ⟨.integer _, .integer _, .integer _⟩
  case keepAlive => exact ⟨.integer _, .integer _, .integer _, .integer _⟩
  case unregister => exact ⟨.integer _, .integer _⟩
  case command => exact ⟨.integer _, .integer _, .integer _, plain_bytes _⟩

theorem entry?_of_fields {value term index operation : Json}
    (hfields : fields? ["term", "index", "operation"] value =
      some [term, index, operation]) :
    entry? value = do
      return ⟨← number? term, ← number? index, ← operation? operation⟩ := by
  unfold entry?
  rw [hfields]
  rfl

/-- An entry is read back from its document. -/
theorem entry?_ofEntry {entry : LogEntry} (hentry : entry.InWords) :
    entry? (ofEntry entry) = some entry := by
  obtain ⟨hterm, hindex, hoperation⟩ := hentry
  rw [ofEntry, entry?_of_fields (fields?_record [("term", number entry.term),
      ("index", number entry.index),
      ("operation", ofOperation entry.operation)] (by simp)),
    number?_number hterm, number?_number hindex,
    operation?_ofOperation hoperation]
  rfl

theorem plain_ofEntry (entry : LogEntry) : (ofEntry entry).Plain := by
  apply plain_record
  simp only [List.mem_cons, List.not_mem_nil, or_false, forall_eq_or_imp,
    forall_eq]
  exact ⟨.integer _, .integer _, plain_ofOperation _⟩

theorem entries?_array (items : List Json) :
    entries? (.array items) = items.mapM entry? := rfl

/-- A log is read back from its document. -/
theorem entries?_ofEntries {entries : List LogEntry}
    (hentries : ∀ entry ∈ entries, entry.InWords) :
    entries? (ofEntries entries) = some entries := by
  have hread : (entries.map ofEntry).mapM entry? = some (entries.map id) :=
    mapM_map_eq_some
      (fun entry hentry => entry?_ofEntry (hentries entry hentry))
  rw [ofEntries, entries?_array, hread, List.map_id]

theorem plain_ofEntries (entries : List LogEntry) :
    (ofEntries entries).Plain :=
  .array (List.forall_mem_map.mpr (fun entry _ => plain_ofEntry entry))

/-! ### What documents describe -/

theorem isWord_of_number? {value : Json} {read : Nat}
    (hread : number? value = some read) : IsWord read := by
  unfold number? natural? at hread
  split at hread
  · split at hread
    · rename_i hbounds
      rw [← Option.some.inj hread, IsWord]
      omega
    · simp at hread
  · simp at hread

theorem isSigned_of_signed? {value : Json} {read : Int}
    (hread : value.signed? signedBound = some read) : IsSigned read := by
  unfold signed? at hread
  split at hread
  · split at hread
    · rename_i hbounds
      exact Option.some.inj hread ▸ hbounds
    · simp at hread
  · simp at hread

theorem isWord_of_optional? {value : Json} {read : Option Nat}
    (hread : optional? value = some read) :
    ∀ number, read = some number → IsWord number := by
  rintro number rfl
  unfold optional? at hread
  split at hread
  · simp at hread
  · obtain ⟨_, hnumber, heq⟩ := Option.map_eq_some_iff.mp hread
    exact Option.some.inj heq ▸ isWord_of_number? hnumber

/-- Every vote that a document describes can be stored. -/
theorem inWords_of_vote? {value : Json} {term : Nat} {votedFor : Option NodeId}
    (hread : vote? value = some (term, votedFor)) :
    VoteInWords term votedFor := by
  simp only [vote?, Option.bind_eq_bind, Option.bind_eq_some_iff] at hread
  obtain ⟨fields, -, hread⟩ := hread
  split at hread
  · simp only [Option.bind_eq_some_iff, Option.pure_def, Option.some.injEq,
      Prod.mk.injEq] at hread
    obtain ⟨_, hterm, _, hvoted, rfl, rfl⟩ := hread
    exact ⟨isWord_of_number? hterm, isWord_of_optional? hvoted⟩
  · simp only [Option.bind_eq_some_iff, Option.pure_def, Option.some.injEq,
      Prod.mk.injEq] at hread
    obtain ⟨_, hterm, rfl, rfl⟩ := hread
    exact ⟨isWord_of_number? hterm, fun _ hnone => by simp at hnone⟩
  · simp at hread

theorem inWords_of_register? {body : Json} {operation : Operation}
    (hread : register? body = some operation) : operation.InWords := by
  simp only [register?, Option.bind_eq_bind, Option.bind_eq_some_iff] at hread
  obtain ⟨fields, -, hread⟩ := hread
  split at hread
  · simp only [Option.bind_eq_some_iff, Option.pure_def,
      Option.some.injEq] at hread
    obtain ⟨_, hclient, _, htimeout, _, htimestamp, rfl⟩ := hread
    exact ⟨isWord_of_number? hclient, isWord_of_number? htimeout,
      isWord_of_number? htimestamp⟩
  · simp at hread

theorem inWords_of_keepAlive? {body : Json} {operation : Operation}
    (hread : keepAlive? body = some operation) : operation.InWords := by
  simp only [keepAlive?, Option.bind_eq_bind, Option.bind_eq_some_iff] at hread
  obtain ⟨fields, -, hread⟩ := hread
  split at hread
  · simp only [Option.bind_eq_some_iff, Option.pure_def,
      Option.some.injEq] at hread
    obtain ⟨_, hsession, _, hcommand, _, hevent, _, htimestamp, rfl⟩ := hread
    exact ⟨isWord_of_number? hsession, isWord_of_number? hcommand,
      isSigned_of_signed? hevent, isWord_of_number? htimestamp⟩
  · simp at hread

theorem inWords_of_unregister? {body : Json} {operation : Operation}
    (hread : unregister? body = some operation) : operation.InWords := by
  simp only [unregister?, Option.bind_eq_bind, Option.bind_eq_some_iff] at hread
  obtain ⟨fields, -, hread⟩ := hread
  split at hread
  · simp only [Option.bind_eq_some_iff, Option.pure_def,
      Option.some.injEq] at hread
    obtain ⟨_, hsession, _, htimestamp, rfl⟩ := hread
    exact ⟨isWord_of_number? hsession, isWord_of_number? htimestamp⟩
  · simp at hread

theorem inWords_of_command? {body : Json} {operation : Operation}
    (hread : command? body = some operation) : operation.InWords := by
  simp only [command?, Option.bind_eq_bind, Option.bind_eq_some_iff] at hread
  obtain ⟨fields, -, hread⟩ := hread
  split at hread
  · simp only [Option.bind_eq_some_iff, Option.pure_def,
      Option.some.injEq] at hread
    obtain ⟨_, hsession, _, hsequence, _, htimestamp, _, -, rfl⟩ := hread
    exact ⟨isWord_of_number? hsession, isWord_of_number? hsequence,
      isWord_of_number? htimestamp⟩
  · simp at hread

theorem inWords_of_operation? {value : Json} {operation : Operation}
    (hread : operation? value = some operation) : operation.InWords := by
  unfold operation? at hread
  split at hread
  · split at hread
    · exact Option.some.inj hread ▸ trivial
    · simp at hread
  · split at hread
    · split at hread
      · exact Option.some.inj hread ▸ trivial
      · simp at hread
    split at hread
    · exact inWords_of_register? hread
    split at hread
    · exact inWords_of_keepAlive? hread
    split at hread
    · exact inWords_of_unregister? hread
    split at hread
    · exact inWords_of_command? hread
    · simp at hread
  · simp at hread

theorem inWords_of_entry? {value : Json} {entry : LogEntry}
    (hread : entry? value = some entry) : entry.InWords := by
  simp only [Option.bind_eq_bind, Option.bind_eq_some_iff, entry?] at hread
  obtain ⟨fields, -, hread⟩ := hread
  split at hread
  · simp only [Option.bind_eq_some_iff, Option.pure_def,
      Option.some.injEq] at hread
    obtain ⟨_, hterm, _, hindex, _, hoperation, rfl⟩ := hread
    exact ⟨isWord_of_number? hterm, isWord_of_number? hindex,
      inWords_of_operation? hoperation⟩
  · simp at hread

/-- Every log that a document describes can be stored. -/
theorem inWords_of_entries? {value : Json} {entries : List LogEntry}
    (hread : entries? value = some entries) :
    ∀ entry ∈ entries, entry.InWords := by
  simp only [entries?, Option.bind_eq_bind, Option.bind_eq_some_iff] at hread
  obtain ⟨items, -, hread⟩ := hread
  induction items generalizing entries with
  | nil =>
      obtain rfl := Option.some.inj hread
      simp
  | cons item items ih =>
      simp only [List.mapM_cons, Option.bind_eq_bind, Option.bind_eq_some_iff,
        Option.pure_def, Option.some.injEq] at hread
      obtain ⟨entry, hentry, others, hothers, rfl⟩ := hread
      have hfirst := inWords_of_entry? hentry
      exact List.forall_mem_cons.mpr ⟨hfirst, ih hothers⟩

end Document

end SessionRaft
