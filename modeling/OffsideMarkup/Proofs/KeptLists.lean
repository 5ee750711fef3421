/-
OffsideMarkup.Proofs.KeptLists — what is remembered of the host's lists, and whom it serves.

What the host has given for a target is a `Receipt`. The receipts of a session are read off its
turns and the questions that were open in them; what is kept plays no part in that. `Shelf` says
where a list for a target is kept: one place for tags, one for each tag whose attributes may be
kept, and none for anything else. The last list on each shelf (`lastOn?`) is all that is remembered
(`Cached`), whoever asked for it: attributes and events of a tag share a shelf, and each takes its
own half of the list when it is served.

* `Cached.append`, `cached_turns` — one receipt, and any turns.
* `handle_completion` — a request is served by the last list on the shelf of its target, or asks.
* `kept_lists` — all of it, after any turns.
-/
import OffsideMarkup.Proofs.Outcomes

namespace OffsideMarkup

/-! ## 1. Receipts -/

/-- A result that the host has given for a target. -/
structure Receipt where
  time : Nat
  target : Target
  result : Json

/-- Where a list of the host is kept. -/
inductive Shelf
  | tags
  /-- The attributes of a tag, those for events among them. -/
  | attributes (tag : List Char)
  deriving DecidableEq

/-- Where lists for a target are kept, if they are. -/
def Target.shelf? : Target → Option Shelf
  | .tag => some .tags
  | .attribute owner | .event owner =>
    if isCacheableTag owner then some (.attributes owner) else none
  | .property _ => none

/-- The list in a receipt that may be kept: the result is a list, a complete one, and has items. -/
def Receipt.list? (r : Receipt) : Option HostList :=
  (HostList.ofJson? r.result).filter HostList.isKeepable

/-- What a receipt puts on a shelf. -/
def Receipt.storedOn? (shelf : Shelf) (r : Receipt) : Option (Receipt × HostList) :=
  if r.target.shelf? = some shelf then r.list?.map (r, ·) else none

/-- The last list that was put on a shelf, with the receipt that it came by. -/
def lastOn? (shelf : Shelf) (rs : List Receipt) : Option (Receipt × HostList) :=
  (rs.filterMap (Receipt.storedOn? shelf)).getLast?

/-- What a reply brings in: its result, if a list was asked for. -/
def Forward.receipt? (f : Forward) (now : Nat) (reply : HostReply) : Option Receipt :=
  match f.question with
  | .completion _ target => reply.result?.map (⟨now, target, ·⟩)
  | .hover _ => none

namespace Server

/-- What a turn brings in, by the open question that it replies to. -/
def receipt? (s : Server) : Turn → Option Receipt
  | .message now _ (.response id reply) =>
    (s.pending.find? fun f => id = .number f.number).bind (·.receipt? now reply)
  | _ => none

/-- What has come in over some turns. -/
def receipts (s : Server) : List Turn → List Receipt
  | [] => []
  | t :: ts => (s.receipt? t).toList ++ (s.turn t).1.receipts ts

end Server

/-! ## 2. Shelves -/

theorem Receipt.storedOn?_eq_some {shelf : Shelf} {r r' : Receipt} {list : HostList} :
    r.storedOn? shelf = some (r', list)
      ↔ r' = r ∧ r.target.shelf? = some shelf ∧ r.list? = some list := by
  rw [storedOn?]
  split
  · next here =>
    rw [Option.map_eq_some_iff]
    constructor
    · rintro ⟨l, found, same⟩
      obtain ⟨rfl, rfl⟩ := Prod.mk.inj same
      exact ⟨rfl, here, found⟩
    · rintro ⟨rfl, -, found⟩
      exact ⟨list, found, rfl⟩
  · next elsewhere => simp [elsewhere]

theorem Receipt.list?_eq_some {r : Receipt} {list : HostList} :
    r.list? = some list
      ↔ HostList.ofJson? r.result = some list ∧ list.isIncomplete = false ∧ list.items ≠ [] := by
  rw [list?, Option.filter_eq_some_iff]
  simp [HostList.isKeepable]

theorem lastOn?_append (shelf : Shelf) (rs : List Receipt) (r : Receipt) :
    lastOn? shelf (rs ++ [r]) = (r.storedOn? shelf).or (lastOn? shelf rs) := by
  rw [lastOn?, List.filterMap_append, List.getLast?_append]
  cases stored : r.storedOn? shelf with
  | none => simp [stored, lastOn?]
  | some entry => simp [stored]

/-- What is last on a shelf was put there. -/
theorem mem_of_lastOn? {shelf : Shelf} {rs : List Receipt} {r : Receipt} {list : HostList}
    (h : lastOn? shelf rs = some (r, list)) :
    r ∈ rs ∧ r.target.shelf? = some shelf ∧ r.list? = some list := by
  obtain ⟨r', mem, stored⟩ := List.mem_filterMap.mp (List.mem_of_getLast? h)
  obtain ⟨rfl, here, found⟩ := Receipt.storedOn?_eq_some.mp stored
  exact ⟨mem, here, found⟩

/-- Where something was put on a shelf, there is a last list. -/
theorem lastOn?_isSome {shelf : Shelf} {rs : List Receipt} {r : Receipt} (mem : r ∈ rs)
    (here : r.target.shelf? = some shelf) (found : r.list?.isSome) :
    ∃ entry, lastOn? shelf rs = some entry := by
  obtain ⟨list, found⟩ := Option.isSome_iff_exists.mp found
  have stored : (r, list) ∈ rs.filterMap (Receipt.storedOn? shelf) :=
    List.mem_filterMap.mpr ⟨r, mem, Receipt.storedOn?_eq_some.mpr ⟨rfl, here, found⟩⟩
  exact Option.isSome_iff_exists.mp (List.getLast?_isSome.mpr (List.ne_nil_of_mem stored))

theorem Target.shelf?_of_attributeTag {t : Target} {owner : List Char}
    (about : t.attributeTag? = some owner) :
    t.shelf? = if isCacheableTag owner then some (.attributes owner) else none := by
  match t, about with
  | .attribute _, rfl => rfl
  | .event _, rfl => rfl

theorem Target.shelf?_eq_attributes {t : Target} {owner : List Char} :
    t.shelf? = some (.attributes owner)
      ↔ t.attributeTag? = some owner ∧ isCacheableTag owner = true := by
  cases about : t.attributeTag? with
  | some other =>
    rw [shelf?_of_attributeTag about]
    grind
  | none =>
    match t, about with
    | .tag, _ => simp [shelf?]
    | .property _, _ => simp [shelf?]

theorem Target.shelf?_eq_tags {t : Target} : t.shelf? = some .tags ↔ t = .tag := by
  match t with
  | .tag => exact ⟨fun _ => rfl, fun _ => rfl⟩
  | .property _ => simp [shelf?]
  | .attribute _ => simp [shelf?]
  | .event _ => simp [shelf?]

/-! ## 3. What is kept -/

/-- What is kept is the last list of each shelf. -/
structure Cached (c : Cache) (rs : List Receipt) : Prop where
  tags : c.tags = (lastOn? .tags rs).map fun (r, list) => (r.time, list)
  attributes : ∀ tag, c.attributes.get? tag = (lastOn? (.attributes tag) rs).map (·.2)

theorem cached_empty : Cached .empty [] := ⟨rfl, fun _ => rfl⟩

/-- A receipt with nothing to keep in it, or with no place to keep it, leaves all shelves alone. -/
theorem Cached.append_of_none {c : Cache} {rs : List Receipt} (h : Cached c rs) {r : Receipt}
    (none : ∀ shelf, r.storedOn? shelf = none) : Cached c (rs ++ [r]) := by
  refine ⟨?_, fun tag => ?_⟩
  · rw [lastOn?_append, none, Option.none_or]
    exact h.tags
  · rw [lastOn?_append, none, Option.none_or]
    exact h.attributes tag

/-- A list comes in. -/
theorem Cached.append {c : Cache} {rs : List Receipt} (h : Cached c rs) {r : Receipt}
    {list : HostList} (decoded : HostList.ofJson? r.result = some list) :
    Cached (c.store r.time r.target list) (rs ++ [r]) := by
  have found : r.list? = if list.isKeepable then some list else none := by
    rw [Receipt.list?, decoded, Option.filter_some]
  unfold Cache.store
  split
  · next keepable =>
    rw [if_pos keepable] at found
    have stored (shelf : Shelf) : r.storedOn? shelf
        = if r.target.shelf? = some shelf then some (r, list) else none := by
      rw [Receipt.storedOn?, found]
      rfl
    have onAttributes {tag : List Char} (about : r.target.attributeTag? = some tag)
        (cacheable : isCacheableTag tag = true) :
        Cached { c with attributes := c.attributes.insert tag list } (rs ++ [r]) := by
      have here := Target.shelf?_eq_attributes.mpr ⟨about, cacheable⟩
      refine ⟨?_, fun other => ?_⟩
      · rw [lastOn?_append, stored, here, if_neg (by simp), Option.none_or]
        exact h.tags
      · rw [lastOn?_append, stored, here]
        by_cases same : other = tag
        · rw [same, if_pos rfl, Table.get?_insert_self]
          rfl
        · rw [if_neg (by simpa using Ne.symm same), Option.none_or,
            Table.get?_insert_of_ne _ _ same]
          exact h.attributes other
    have nowhere (homeless : r.target.shelf? = none) : Cached c (rs ++ [r]) :=
      h.append_of_none fun shelf => by rw [stored, homeless, if_neg (by simp)]
    split
    · next asked =>
      refine ⟨?_, fun tag => ?_⟩
      · rw [lastOn?_append, stored, if_pos (Target.shelf?_eq_tags.mpr asked)]
        rfl
      · rw [lastOn?_append, stored, asked, if_neg (by simp [Target.shelf?]), Option.none_or]
        exact h.attributes tag
    · next tag asked =>
      split
      · next cacheable => exact onAttributes (by rw [asked]; rfl) cacheable
      · next other => exact nowhere (by rw [asked, Target.shelf?, if_neg other])
    · next tag asked =>
      split
      · next cacheable => exact onAttributes (by rw [asked]; rfl) cacheable
      · next other => exact nowhere (by rw [asked, Target.shelf?, if_neg other])
    · next tag asked => exact nowhere (by rw [asked]; rfl)
  · next useless =>
    refine h.append_of_none fun shelf => ?_
    rw [Receipt.storedOn?, found, if_neg useless, Option.map_none, ite_self]

namespace Server

theorem receipt?_of_unasked {s : Server} {t : Turn} (h : s.repliedTo? t = none) :
    s.receipt? t = none := by
  unfold receipt?
  split
  · next now waiting id reply =>
    have none : s.pending.find? (fun f => id = .number f.number) = none := h
    rw [none, Option.bind_none]
  · rfl

/-- A reply is settled. -/
theorem cached_settle {s : Server} {rs : List Receipt} (h : Cached s.cache rs) (f : Forward)
    (now : Nat) (reply : HostReply) :
    Cached ((s.forget f).settle now f reply.result?).1.cache
      (rs ++ (f.receipt? now reply).toList) := by
  obtain ⟨number, origin, deadline, question⟩ := f
  cases question with
  | hover fragment =>
    show Cached s.cache (rs ++ [])
    rw [List.append_nil]
    exact h
  | completion offered target =>
    cases reply with
    | failure report =>
      show Cached s.cache (rs ++ [])
      rw [List.append_nil]
      exact h
    | result value =>
      show Cached ((HostList.ofJson? value).elim s.cache (s.cache.store now target))
        (rs ++ [⟨now, target, value⟩])
      cases decoded : HostList.ofJson? value with
      | some list => exact h.append (r := ⟨now, target, value⟩) decoded
      | none =>
        refine h.append_of_none fun shelf => ?_
        rw [Receipt.storedOn?, Receipt.list?, decoded, Option.filter_none, Option.map_none,
          ite_self]

theorem cached_turn {s : Server} {rs : List Receipt} (h : Cached s.cache rs) (t : Turn) :
    Cached (s.turn t).1.cache (rs ++ (s.receipt? t).toList) := by
  have outcome := outcome_turn s t
  generalize s.turn t = after at outcome
  have silent {cache : Cache} (same : cache = s.cache) (nothing : s.receipt? t = none) :
      Cached cache (rs ++ (s.receipt? t).toList) := by
    rw [same, nothing, Option.toList_none, List.append_nil]
    exact h
  cases outcome with
  | aside unasked apart => exact silent apart.cache (receipt?_of_unasked unasked)
  | asked q => exact silent rfl rfl
  | withdrawn found => exact silent rfl rfl
  | expired now =>
    refine silent ?_ rfl
    rw [expire, settleAll_eq]
  | reordered _ => exact silent rfl rfl
  | @resumed now waiting id reply f found =>
    rw [receipt?, found, Option.bind_some]
    exact cached_settle h f now reply

/-- After any turns of a session, what is kept is what came in over them. -/
theorem cached_turns (config : Config) (history : List Turn) :
    Cached ((create config).turns history).1.cache ((create config).receipts history) := by
  have general (ts : List Turn) : ∀ (s : Server) (rs : List Receipt), Cached s.cache rs →
      Cached (s.turns ts).1.cache (rs ++ s.receipts ts) := by
    induction ts with
    | nil =>
      intro s rs h
      rw [receipts, List.append_nil]
      exact h
    | cons t ts ih =>
      intro s rs h
      rw [receipts, ← List.append_assoc]
      exact ih _ _ (cached_turn h t)
  exact general history _ [] cached_empty

end Server

/-! ## 4. Requests -/

/-- The list that serves a target: the last one on its shelf. That of tags serves for a time. -/
def serving? (lifetime now : Nat) (target : Target) (rs : List Receipt) :
    Option (Receipt × HostList) :=
  target.shelf?.bind fun shelf =>
    (lastOn? shelf rs).filter fun (r, _) => shelf ≠ .tags ∨ now - r.time < lifetime

theorem serving?_attributes {lifetime now : Nat} {target : Target} {rs : List Receipt}
    {owner : List Char} (here : target.shelf? = some (.attributes owner)) :
    serving? lifetime now target rs = lastOn? (.attributes owner) rs := by
  rw [serving?, here, Option.bind_some]
  cases lastOn? (.attributes owner) rs <;> simp [Option.filter]

theorem serving?_tag {lifetime now : Nat} {rs : List Receipt} {r : Receipt} {list : HostList} :
    serving? lifetime now .tag rs = some (r, list)
      ↔ lastOn? .tags rs = some (r, list) ∧ now - r.time < lifetime := by
  rw [serving?, Target.shelf?_eq_tags.mpr rfl, Option.bind_some, Option.filter_eq_some_iff]
  simp

theorem Cached.get? {c : Cache} {rs : List Receipt} (h : Cached c rs) (lifetime now : Nat)
    (target : Target) :
    c.get? lifetime now target = (serving? lifetime now target rs).map (·.2) := by
  have attributes (owner : List Char) (about : target.attributeTag? = some owner) :
      c.attributes.get? owner = (serving? lifetime now target rs).map (·.2) := by
    rw [h.attributes]
    cases cacheable : isCacheableTag owner with
    | true => rw [serving?_attributes (Target.shelf?_eq_attributes.mpr ⟨about, cacheable⟩)]
    | false =>
      have homeless : target.shelf? = none := by
        rw [Target.shelf?_of_attributeTag about, cacheable, if_neg Bool.false_ne_true]
      have nothing : lastOn? (.attributes owner) rs = none := by
        rw [Option.eq_none_iff_forall_ne_some]
        intro entry last
        have := (Target.shelf?_eq_attributes.mp (mem_of_lastOn? last).2.1).2
        rw [cacheable] at this
        cases this
      rw [nothing, serving?, homeless]
      rfl
  match target, attributes with
  | .attribute owner, attributes => exact attributes owner rfl
  | .event owner, attributes => exact attributes owner rfl
  | .property _, _ => rfl
  | .tag, _ =>
    rw [Cache.get?, h.tags, serving?, Target.shelf?_eq_tags.mpr rfl, Option.bind_some]
    cases lastOn? .tags rs with
    | none => rfl
    | some entry => simp [Option.filter, apply_ite]

namespace Server

variable {s : Server} {rs : List Receipt}

/-- The request is answered in its own turn, without a question, and nothing changes. -/
def AnswersAtOnce (s : Server) (id : RequestId) (after : Server × List ServerMessage) : Prop :=
  ∃ answer, after = (s, [.answer id answer])

/-- A request for what may be written at a place that the host knows about. -/
theorem handle_completion (h : Cached s.cache rs) {uri : String} {a : Analysis}
    (isOpen : s.documents.get? uri = some a) (going : s.isShuttingDown = false) {p : Position}
    {target : Target} (found : a.tree.targetAt? p = some target) (now : Nat)
    (waiting : List ClientMessage) (id : RequestId) :
    s.handle now waiting (.request id (.ok (.completion uri p)))
      = match serving? s.config.tagLifetimeMillis now target rs with
        | some (_, list) => (s, [.answer id (offers (a.tree.modifiersAt p) target (some list))])
        | none => s.ask now id (.completion (a.tree.modifiersAt p) target) := by
  simp only [handle, answer, going, Bool.false_eq_true, if_false, serve, withDocument, isOpen,
    complete, found, h.get?]
  cases serving? s.config.tagLifetimeMillis now target rs <;> rfl

/-- How a request for a target is dealt with, by the receipts so far. -/
structure Serves (s : Server) (rs : List Receipt) (now : Nat) (id : RequestId)
    (offered : List Modifier) (target : Target) (after : Server × List ServerMessage) : Prop where
  /-- It is answered at once, or asks the host. -/
  either : s.AnswersAtOnce id after ∨ after = s.ask now id (.completion offered target)
  /-- Tags are answered at once while the last list of tags is younger than its lifetime. -/
  tags : target = .tag → (s.AnswersAtOnce id after ↔
    ∃ r list, lastOn? .tags rs = some (r, list) ∧ now - r.time < s.config.tagLifetimeMillis)
  /-- Attributes and events of a tag are answered at once if there ever was a list for it. -/
  attributes : ∀ owner, target.attributeTag? = some owner → (s.AnswersAtOnce id after ↔
    ∃ r ∈ rs, r.target.shelf? = some (.attributes owner) ∧ r.list?.isSome)
  /-- Properties, and attributes and events of other tags, always ask the host. -/
  others : ∀ owner, target = .property owner ∨
      target.attributeTag? = some owner ∧ isCacheableTag owner = false →
    after = s.ask now id (.completion offered target)
  /-- What is answered at once is what settling a question answers, with the result that the last
  list on the shelf came by. -/
  same : ∀ answer, after = (s, [.answer id answer]) →
    ∃ shelf r list, target.shelf? = some shelf ∧ lastOn? shelf rs = some (r, list)
      ∧ ∀ (s' : Server) (now' number deadline : Nat),
        (s'.settle now' ⟨number, id, deadline, .completion offered target⟩ (some r.result)).2
          = [.answer id answer]

section

variable {now : Nat} {id : RequestId} {offered : List Modifier} {target : Target}

/-- A question is no answer. -/
theorem not_answersAtOnce_ask (s : Server) (now : Nat) (id : RequestId) (q : Question) :
    ¬ s.AnswersAtOnce id (s.ask now id q) := by
  rintro ⟨answer, same⟩
  have messages := congrArg Prod.snd same
  simp [ask] at messages

/-- Nothing serves the target, so the host is asked. -/
theorem serves_ask (none : serving? s.config.tagLifetimeMillis now target rs = none) :
    s.Serves rs now id offered target (s.ask now id (.completion offered target)) where
  either := .inr rfl
  tags := by
    rintro rfl
    refine iff_of_false (s.not_answersAtOnce_ask now id _) ?_
    rintro ⟨r, list, last, young⟩
    rw [serving?_tag.mpr ⟨last, young⟩] at none
    cases none
  attributes owner about := by
    refine iff_of_false (s.not_answersAtOnce_ask now id _) ?_
    rintro ⟨r, mem, here, stored⟩
    obtain ⟨entry, last⟩ := lastOn?_isSome mem here stored
    have cacheable := (Target.shelf?_eq_attributes.mp here).2
    rw [serving?_attributes (Target.shelf?_eq_attributes.mpr ⟨about, cacheable⟩), last] at none
    cases none
  others _ _ := rfl
  same answer at_once := absurd ⟨answer, at_once⟩ (s.not_answersAtOnce_ask now id _)

/-- The last list on the shelf of the target serves. -/
theorem serves_answer {r : Receipt} {list : HostList}
    (found : serving? s.config.tagLifetimeMillis now target rs = some (r, list)) :
    s.Serves rs now id offered target (s, [.answer id (offers offered target (some list))]) := by
  have at_once : s.AnswersAtOnce id (s, [.answer id (offers offered target (some list))]) :=
    ⟨_, rfl⟩
  obtain ⟨shelf, here, serves⟩ := Option.bind_eq_some_iff.mp found
  have last := (Option.filter_eq_some_iff.mp serves).1
  obtain ⟨mem, there, stored⟩ := mem_of_lastOn? last
  refine ⟨.inl at_once, ?_, fun owner about => ?_, fun owner other => ?_, fun answer same => ?_⟩
  · rintro rfl
    exact iff_of_true at_once ⟨r, list, serving?_tag.mp found⟩
  · rw [Target.shelf?_of_attributeTag about] at here
    split at here
    · exact iff_of_true at_once ⟨r, mem, there.trans here.symm, by rw [stored]; rfl⟩
    · cases here
  · have homeless : target.shelf? = none := by
      rcases other with rfl | ⟨about, uncacheable⟩
      · rfl
      · rw [Target.shelf?_of_attributeTag about, uncacheable, if_neg Bool.false_ne_true]
    rw [homeless] at here
    cases here
  · obtain rfl : offers offered target (some list) = answer := by simpa using same
    refine ⟨shelf, r, list, here, last, fun s' now' number deadline => ?_⟩
    rw [settle]
    simp only [Option.bind_some, (Receipt.list?_eq_some.mp stored).1]

end

end Server

/-! ## 5. After any turns -/

/-- What is remembered of the host's lists. After any turns of a session only complete lists with
items are kept, and attributes only under tags in lower case without a hyphen. A request for what
may be written at a place that the host knows about, on an open document and in front of a request
to shut down, is served by what has come in over these turns. -/
theorem kept_lists (config : Config) (history : List Turn) :
    let s := ((Server.create config).turns history).1
    (∀ time list, s.cache.tags = some (time, list) → list.isIncomplete = false ∧ list.items ≠ [])
      ∧ (∀ owner list, s.cache.attributes.get? owner = some list →
          list.isIncomplete = false ∧ list.items ≠ [] ∧ lowercase owner = owner ∧ '-' ∉ owner)
      ∧ s.config = config
      ∧ ∀ uri a, s.documents.get? uri = some a → s.isShuttingDown = false →
        ∀ p target, a.tree.targetAt? p = some target → ∀ now waiting id,
          s.Serves ((Server.create config).receipts history) now id (a.tree.modifiersAt p) target
            (s.handle now waiting (.request id (.ok (.completion uri p)))) := by
  have cached := Server.cached_turns config history
  refine ⟨fun time list kept => ?_, fun owner list kept => ?_, Server.config_turns _ history,
    fun uri a isOpen going p target found now waiting id => ?_⟩
  · rw [cached.tags, Option.map_eq_some_iff] at kept
    obtain ⟨⟨r, l⟩, last, same⟩ := kept
    obtain ⟨rfl, rfl⟩ := Prod.mk.inj same
    exact (Receipt.list?_eq_some.mp (mem_of_lastOn? last).2.2).2
  · rw [cached.attributes, Option.map_eq_some_iff] at kept
    obtain ⟨⟨r, l⟩, last, rfl⟩ := kept
    obtain ⟨-, here, stored⟩ := mem_of_lastOn? last
    obtain ⟨-, complete, some⟩ := Receipt.list?_eq_some.mp stored
    have cacheable := (Target.shelf?_eq_attributes.mp here).2
    simp only [isCacheableTag, Bool.and_eq_true, Bool.not_eq_true', List.contains_eq_mem,
      decide_eq_false_iff_not, beq_iff_eq] at cacheable
    exact ⟨complete, some, cacheable.2, cacheable.1⟩
  · rw [Server.handle_completion cached isOpen going found]
    split
    · next r list serves => exact Server.serves_answer serves
    · next none => exact Server.serves_ask none

/-- The host is asked for the attributes of a tag, and lists them. -/
def attributesListed : List Turn :=
  [.message 0 [] (.notification
      (some (.opened "a" "b" 1 ['>', 'p', '\n', ' ', '#', '\n', ' ', '@']))),
    .message 1 [] (.request (.number 1) (.ok (.completion "a" ⟨1, 1⟩))),
    .message 2 [] (.response (.number 1) (.result (.obj
      [("isIncomplete", .bool false), ("items", .arr [.obj [("label", .str "onclick")]])])))]

/-- That list serves the events of the tag. -/
theorem kept_lists_of_attributes :
    let s := ((Server.create .standard).turns attributesListed).1
    s.AnswersAtOnce (.number 2)
      (s.handle 3 [] (.request (.number 2) (.ok (.completion "a" ⟨2, 1⟩)))) := by
  intro s
  have isOpen : (s.documents.get? "a").isSome = true := by decide +kernel
  obtain ⟨a, isOpen⟩ := Option.isSome_iff_exists.mp isOpen
  have cursor : (s.documents.get? "a").map (fun a => a.tree.targetAt? ⟨2, 1⟩)
      = some (some (.event ['p'])) := by decide +kernel
  rw [isOpen] at cursor
  have listed : ((Server.create .standard).receipts attributesListed).any (fun r =>
      r.target.shelf? = some (.attributes ['p']) ∧ r.list?.isSome) = true := by decide +kernel
  obtain ⟨r, mem, here⟩ := List.any_eq_true.mp listed
  have serves := (kept_lists .standard attributesListed).2.2.2 "a" a isOpen (by decide +kernel)
    ⟨2, 1⟩ (.event ['p']) (Option.some.inj cursor) 3 [] (.number 2)
  exact (serves.attributes ['p'] rfl).mpr ⟨r, mem, of_decide_eq_true here⟩

end OffsideMarkup
