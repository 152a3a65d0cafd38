import CommonChat.Foundation.InsertionMap
import CommonChat.Frontend.Sidebar

/-!
# The sidebar as a list

What `getDirectMessagesPeerList` returns, row by row.  Its map is a list of rows
that is written by key; with strings for keys it is an insertion-ordered map.  The
first sort keeps the rows that are not online in their order, and the second one
finds its input in order.
-/

namespace CommonChat.Frontend

open CommonChat.Foundation
open CommonChat.Relay

/-! ## The intended rows -/

def keyText : JsValue → JsString
  | .str s => s
  | _ => []

def partnerKey (m : ChatMessage) : Option JsString :=
  if m.fromMe.truthy then
    match m.recipient with
    | .str r => if r = broadcastId then none else some r
    | _ => none
  else
    match m.peerId with
    | .str p => some p
    | _ => none

def partnerKeys (messages : List ChatMessage) : List JsString :=
  messages.filterMap partnerKey

def isOnlineKey (onlinePeers : List Peer) (key : JsString) : Bool :=
  onlinePeers.any fun p => p.pubKey.strictEq (.str key)

def onlineRow (onlinePeers : List Peer) (key : JsString) : ListedPeer :=
  let last := (onlinePeers.filter fun p => keyText p.pubKey = key).getLast?
  { id := (last.map Peer.id).getD .undefined
    name := (last.map Peer.name).getD .undefined
    pubKey := .str key
    online := true }

def givesName (key : JsString) (m : ChatMessage) : Bool :=
  !m.fromMe.truthy && m.peerId.strictEq (.str key) && m.displayName.truthy

def latestName (messages : List ChatMessage) (key : JsString) : Option JsValue :=
  ((messages.filter (givesName key)).getLast?).map ChatMessage.displayName

def offlineRow (messages : List ChatMessage) (key : JsString) : ListedPeer where
  id := .str key
  name := (latestName messages key).getD (truncate (.str key) 12)
  pubKey := .str key
  online := false

/--
The intended sidebar: the online peers in the order of their first occurrence,
then those of `partners` who are not online, in the order of theirs.
-/
def intendedPeerList (partners : List JsString) (messages : List ChatMessage)
    (onlinePeers : List Peer) (me : JsString) : List ListedPeer :=
  (((onlinePeers.map fun p => keyText p.pubKey).filter fun key =>
      key ≠ me).eraseDups.map (onlineRow onlinePeers)) ++
    ((partners.filter fun key =>
      key ≠ me && !isOnlineKey onlinePeers key).eraseDups.map (offlineRow messages))

def StringKeys (m : ChatMessage) : Prop :=
  (∃ p, m.peerId = .str p) ∧
    (m.recipient.isNullish = true ∨ ∃ r, m.recipient = .str r)

theorem conversationPartner_cases {m : ChatMessage} (h : StringKeys m) :
    (∃ key, partnerKey m = some key ∧ conversationPartner m = .str key) ∨
      (partnerKey m = none ∧ (conversationPartner m).truthy = false) := by
  obtain ⟨⟨p, hp⟩, hrecipient⟩ := h
  simp only [partnerKey, conversationPartner]
  split
  · rcases hrecipient with hnone | ⟨r, hr⟩
    · right
      cases hr : m.recipient with
      | undefined => exact ⟨rfl, rfl⟩
      | null => exact ⟨rfl, rfl⟩
      | _ =>
          rw [hr] at hnone
          cases hnone
    · by_cases hall : r = broadcastId
      · right
        simp [hr, hall, JsValue.truthy]
      · left
        exact ⟨r, by simp [hr, hall], by simp [hr, hall]⟩
  · left
    exact ⟨p, by rw [hp], hp⟩

/-! ## The sorts -/

/-- The sort is stable, so it keeps the rows that are not online in their order. -/
theorem filter_sortOnlineFirst (list : List ListedPeer) :
    (sortOnlineFirst list).filter (fun p => !p.online) =
      list.filter fun p => !p.online := by
  have hpairwise : (list.filter fun p => !p.online).Pairwise fun a b =>
      a.online = b.online ∨ a.online = true := by
    apply List.pairwise_of_forall_mem_list
    intro a ha b hb
    have haonline := (List.mem_filter.mp ha).2
    have hbonline := (List.mem_filter.mp hb).2
    simp only [Bool.not_eq_true'] at haonline hbonline
    exact .inl (haonline.trans hbonline.symm)
  have hsub : (list.filter fun p => !p.online).Sublist (sortOnlineFirst list) :=
    List.sublist_insertionSort hpairwise List.filter_sublist
  have hkept := hsub.filter fun p => !p.online
  rw [List.filter_filter] at hkept
  simp only [Bool.and_self] at hkept
  refine (hkept.eq_of_length ?_).symm
  exact ((List.perm_insertionSort _ list).filter _).length_eq.symm

theorem sortOnlineFirst_append {online offline : List ListedPeer}
    (honline : ∀ p ∈ online, p.online = true)
    (hoffline : ∀ p ∈ offline, p.online = false) :
    sortOnlineFirst (online ++ offline) = online ++ offline := by
  apply List.Pairwise.insertionSort_eq
  rw [List.pairwise_append]
  refine ⟨?_, ?_, ?_⟩
  · exact List.pairwise_of_forall_mem_list fun a ha b _ => .inr (honline a ha)
  · exact List.pairwise_of_forall_mem_list fun a ha b hb =>
      .inl ((hoffline a ha).trans (hoffline b hb).symm)
  · exact fun a ha b _ => .inr (honline a ha)

/-! ## The map of names -/

theorem find_setName (names : List (JsValue × JsValue)) (other name : JsValue)
    (key : JsString) :
    ((setName names other name).find? fun entry =>
        entry.1.strictEq (.str key)).map Prod.snd =
      if other.strictEq (.str key) then some name
      else (names.find? fun entry => entry.1.strictEq (.str key)).map Prod.snd := by
  unfold setName
  split
  · rename_i hknown
    have hsame : ((fun entry : JsValue × JsValue => entry.1.strictEq (.str key)) ∘
        fun entry : JsValue × JsValue =>
          if entry.1.strictEq other then (entry.1, name) else entry) =
        fun entry => entry.1.strictEq (.str key) := by
      funext entry
      simp only [Function.comp_apply]
      split <;> rfl
    rw [List.find?_map, hsame]
    cases hfind : names.find? fun entry => entry.1.strictEq (.str key) with
    | none =>
        obtain ⟨entry, hentry, hother⟩ := List.any_eq_true.mp hknown
        have hnot := List.find?_eq_none.mp hfind entry hentry
        rw [strictEq_of_strictEq_str hother] at hnot
        rw [if_neg hnot]
        rfl
    | some entry =>
        have hkey := List.find?_some hfind
        rw [JsValue.strictEq_str_iff] at hkey
        by_cases hother : other = .str key
        · simp [hkey, hother]
        · have hne : (JsValue.str key).strictEq other = false := by
            cases hsame : (JsValue.str key).strictEq other with
            | false => rfl
            | true =>
                have hback : (JsValue.str key).strictEq (.str key) =
                    other.strictEq (.str key) := strictEq_of_strictEq_str hsame
                simp only [JsValue.str_strictEq_str, beq_self_eq_true] at hback
                exact absurd ((JsValue.strictEq_str_iff _ _).mp hback.symm) hother
          simp [hkey, hne, hother]
  · rename_i hnew
    rw [List.find?_append]
    by_cases hother : other = .str key
    · have hnone : (names.find? fun entry => entry.1.strictEq (.str key)) = none := by
        rw [List.find?_eq_none]
        intro entry hentry hkey
        rw [hother] at hnew
        exact hnew (List.any_eq_true.mpr ⟨entry, hentry, hkey⟩)
      simp [hnone, hother]
    · simp [hother]

theorem latestName_concat (messages : List ChatMessage) (m : ChatMessage)
    (key : JsString) :
    latestName (messages ++ [m]) key =
      if givesName key m then some m.displayName else latestName messages key := by
  rw [latestName, List.filter_append]
  by_cases hgives : givesName key m = true
  · rw [List.filter_cons_of_pos hgives, if_pos hgives]
    simp
  · rw [List.filter_cons_of_neg hgives, if_neg hgives]
    simp [latestName]

theorem truthy_of_latestName {messages : List ChatMessage} {key : JsString}
    {name : JsValue} (h : latestName messages key = some name) :
    name.truthy = true := by
  obtain ⟨m, hm, rfl⟩ := Option.map_eq_some_iff.mp h
  have hgives := (List.mem_filter.mp (List.mem_of_getLast? hm)).2
  simp only [givesName, Bool.and_eq_true] at hgives
  exact hgives.2

theorem find_peerNames (messages : List ChatMessage) {me key : JsString}
    (hne : key ≠ []) (hme : key ≠ me) :
    ((peerNames messages me).find? fun entry =>
      entry.1.strictEq (.str key)).map Prod.snd = latestName messages key := by
  induction messages using List.reverseRecOn with
  | nil => rfl
  | append_singleton messages m ih =>
      rw [latestName_concat, ← ih, peerNames, List.foldl_append, ← peerNames]
      simp only [List.foldl_cons, List.foldl_nil]
      cases hfrom : m.fromMe.truthy with
      | true => simp [givesName, hfrom]
      | false =>
          have hpartner : conversationPartner m = m.peerId := by
            simp [conversationPartner, hfrom]
          rw [hpartner]
          by_cases hkey : m.peerId = .str key
          · cases hname : m.displayName.truthy with
            | true =>
                simp [givesName, hfrom, hkey, hname, isOtherPeer, hne, hme,
                  find_setName]
            | false => simp [givesName, hfrom, hname]
          · have hgives : givesName key m = false := by
              simp [givesName, hkey]
            rw [hgives]
            split
            · rw [find_setName, if_neg (by simpa using hkey)]
              rfl
            · rfl

/-! ## The map of rows -/

structure Holds (byKey : List ListedPeer) (m : InsertionMap JsString ListedPeer) :
    Prop where
  rows_eq : byKey = m.values
  keyed : ∀ entry ∈ m.entries, entry.2.pubKey = .str entry.1

theorem holds_empty : Holds [] .empty := ⟨rfl, nofun⟩

theorem Holds.any_key {byKey : List ListedPeer}
    {m : InsertionMap JsString ListedPeer} (h : Holds byKey m) (key : JsString) :
    (byKey.any fun q => q.pubKey.strictEq (.str key)) = m.has key := by
  rw [Bool.eq_iff_iff, InsertionMap.has_iff, List.any_eq_true, h.rows_eq]
  constructor
  · rintro ⟨q, hq, hkey⟩
    obtain ⟨entry, hentry, rfl⟩ := List.mem_map.mp hq
    rw [h.keyed entry hentry, JsValue.strictEq_str_iff] at hkey
    cases hkey
    exact List.mem_map_of_mem hentry
  · intro hkey
    obtain ⟨entry, hentry, rfl⟩ := List.mem_map.mp hkey
    refine ⟨entry.2, List.mem_map_of_mem hentry, ?_⟩
    rw [h.keyed entry hentry, JsValue.strictEq_str_iff]

theorem Holds.setListed {byKey : List ListedPeer}
    {m : InsertionMap JsString ListedPeer} (h : Holds byKey m) {p : ListedPeer}
    {key : JsString} (hp : p.pubKey = .str key) :
    Holds (setListed byKey p) (m.set key p) := by
  unfold Frontend.setListed
  rw [hp, h.any_key]
  by_cases hmem : key ∈ m.keys
  · refine ⟨?_, ?_⟩
    · rw [if_pos ((m.has_iff key).mpr hmem), InsertionMap.values,
        InsertionMap.entries_set_of_mem hmem, h.rows_eq, InsertionMap.values,
        List.map_map, List.map_map]
      apply List.map_congr_left
      intro entry hentry
      simp only [Function.comp_apply, h.keyed entry hentry, JsValue.str_strictEq_str,
        InsertionMap.overwrite, beq_iff_eq]
      split <;> rfl
    · rw [InsertionMap.entries_set_of_mem hmem]
      intro entry hentry
      obtain ⟨old, hold, rfl⟩ := List.mem_map.mp hentry
      unfold InsertionMap.overwrite
      split
      · exact hp
      · exact h.keyed old hold
  · refine ⟨?_, ?_⟩
    · rw [if_neg fun hhas => hmem ((m.has_iff key).mp hhas), InsertionMap.values,
        InsertionMap.entries_set_of_new hmem, List.map_append, h.rows_eq]
      rfl
    · rw [InsertionMap.entries_set_of_new hmem]
      intro entry hentry
      rcases List.mem_append.mp hentry with hold | hnew
      · exact h.keyed entry hold
      · rw [List.mem_singleton.mp hnew]
        exact hp

/-! ## The two loops -/

theorem keyText_str (key : JsString) : keyText (.str key) = key := rfl

def onlineMap (onlinePeers : List Peer) (me : JsString) :
    InsertionMap JsString ListedPeer :=
  .ofItems (fun p => keyText p.pubKey) (fun p => { p with online := true })
    (onlinePeers.filter fun p => keyText p.pubKey ≠ me)

theorem holds_online {onlinePeers : List Peer} (me : JsString)
    (hkeys : ∀ p ∈ onlinePeers, ∃ key, p.pubKey = .str key) :
    Holds (onlinePeers.foldl (fun byKey p =>
      if p.pubKey.strictEq (.str me) then byKey
      else setListed byKey { p with online := true }) [])
      (onlineMap onlinePeers me) := by
  rw [onlineMap, InsertionMap.ofItems, List.foldl_filter]
  refine List.foldl_rel holds_empty ?_
  intro p hp byKey m h
  obtain ⟨key, hkey⟩ := hkeys p hp
  simp only [hkey, keyText_str, JsValue.str_strictEq_str, beq_iff_eq, ne_eq,
    decide_not, Bool.not_eq_true', decide_eq_false_iff_not]
  by_cases hme : key = me
  · simpa only [hme, if_true, not_true_eq_false, if_false] using h
  · simp only [hme, if_false, not_false_eq_true, if_true]
    exact h.setListed hkey

theorem keys_onlineMap (onlinePeers : List Peer) (me : JsString) :
    (onlineMap onlinePeers me).keys =
      ((onlinePeers.map fun p => keyText p.pubKey).filter fun key =>
        key ≠ me).eraseDups := by
  rw [onlineMap, InsertionMap.keys_ofItems, List.filter_map]
  rfl

theorem values_onlineMap {onlinePeers : List Peer} (me : JsString)
    (hkeys : ∀ p ∈ onlinePeers, ∃ key, p.pubKey = .str key) :
    (onlineMap onlinePeers me).values =
      (onlineMap onlinePeers me).keys.map (onlineRow onlinePeers) := by
  have hget : ∀ key ∈ (onlineMap onlinePeers me).keys,
      (onlineMap onlinePeers me).get key = some (onlineRow onlinePeers key) := by
    intro key hkey
    rw [keys_onlineMap, List.mem_eraseDups, List.mem_filter, decide_eq_true_eq] at hkey
    obtain ⟨hmem, hme⟩ := hkey
    have hothers : (onlinePeers.filter fun p => keyText p.pubKey ≠ me).filter
        (fun p => keyText p.pubKey = key) =
        onlinePeers.filter fun p => keyText p.pubKey = key := by
      rw [List.filter_filter]
      apply List.filter_congr
      intro p _
      by_cases hp : keyText p.pubKey = key
      · simp [hp, hme]
      · simp [hp]
    rw [onlineMap, InsertionMap.get_ofItems, hothers, onlineRow]
    cases hlast : (onlinePeers.filter fun p => keyText p.pubKey = key).getLast? with
    | none =>
        obtain ⟨p, hp, hkey⟩ := List.mem_map.mp hmem
        have hfilter : p ∈ onlinePeers.filter fun p => keyText p.pubKey = key :=
          List.mem_filter.mpr ⟨hp, by simpa using hkey⟩
        rw [List.getLast?_eq_none_iff.mp hlast] at hfilter
        cases hfilter
    | some p =>
        obtain ⟨hp, hkey⟩ := List.mem_filter.mp (List.mem_of_getLast? hlast)
        obtain ⟨key', hkey'⟩ := hkeys p hp
        rw [hkey', keyText_str, decide_eq_true_eq] at hkey
        subst hkey
        simp [← hkey']
  rw [InsertionMap.values_eq_filterMap_get, List.filterMap_congr hget,
    ← List.filterMap_eq_map]
  rfl

theorem has_onlineMap {onlinePeers : List Peer} {me key : JsString}
    (hme : key ≠ me) (hkeys : ∀ p ∈ onlinePeers, ∃ key, p.pubKey = .str key) :
    (onlineMap onlinePeers me).has key = isOnlineKey onlinePeers key := by
  rw [Bool.eq_iff_iff, InsertionMap.has_iff, keys_onlineMap, List.mem_eraseDups]
  simp only [List.mem_filter, List.mem_map, isOnlineKey, List.any_eq_true,
    JsValue.strictEq_str_iff, decide_eq_true_eq]
  constructor
  · rintro ⟨⟨p, hp, rfl⟩, -⟩
    obtain ⟨key, hkey⟩ := hkeys p hp
    exact ⟨p, hp, by rw [hkey, keyText_str]⟩
  · rintro ⟨p, hp, hkey⟩
    exact ⟨⟨p, hp, by rw [hkey, keyText_str]⟩, hme⟩

theorem foldl_previous {byKey previous : List ListedPeer}
    {m : InsertionMap JsString ListedPeer} {me : JsString} (h : Holds byKey m)
    (hnodup : (previous.map fun p => keyText p.pubKey).Nodup)
    (hkeys : ∀ p ∈ previous, ∃ key, key ≠ me ∧ p.pubKey = .str key) :
    previous.foldl (fun byKey p =>
        if p.pubKey.strictEq (.str me) then byKey
        else if byKey.any fun q => q.pubKey.strictEq p.pubKey then byKey
        else setListed byKey { p with online := false }) byKey =
      byKey ++ (previous.filter fun p => !m.has (keyText p.pubKey)).map
        fun p => { p with online := false } := by
  have hholds : Holds (previous.foldl (fun byKey p =>
      if p.pubKey.strictEq (.str me) then byKey
      else if byKey.any fun q => q.pubKey.strictEq p.pubKey then byKey
      else setListed byKey { p with online := false }) byKey)
      (previous.foldl (fun m p =>
        m.setNew (keyText p.pubKey) { p with online := false }) m) := by
    refine List.foldl_rel h ?_
    intro p hp byKey m h
    obtain ⟨key, hme, hkey⟩ := hkeys p hp
    simp only [hkey, keyText_str, JsValue.str_strictEq_str, beq_iff_eq, hme, if_false,
      h.any_key, InsertionMap.setNew]
    split
    · exact h
    · exact h.setListed hkey
  rw [hholds.rows_eq, h.rows_eq]
  exact InsertionMap.values_foldl_setNew (fun p : ListedPeer => keyText p.pubKey)
    (fun p : ListedPeer => { p with online := false }) hnodup m

/-! ## Conversation partners -/

def previousRow (names : List (JsValue × JsValue)) (onlinePeers : List Peer)
    (key : JsString) : ListedPeer :=
  let online := onlinePeers.find? fun p => p.pubKey.strictEq (.str key)
  let known := (names.find? fun entry => entry.1.strictEq (.str key)).map Prod.snd
  { id := .str key
    pubKey := .str key
    name := ((online.map Peer.name).getD .undefined).coalesce
      ((known.getD .undefined).coalesce (truncate (.str key) 12))
    online := online.isSome }

def isNewPartner (me : JsString) (seen : List JsString) (key : JsString) : Bool :=
  isOtherPeer me (.str key) && !seen.contains key

theorem isNewPartner_cons (me : JsString) (seen : List JsString) (key k : JsString) :
    isNewPartner me (key :: seen) k = (!k == key && isNewPartner me seen k) := by
  rw [isNewPartner, isNewPartner, List.contains_cons, Bool.not_or, Bool.and_left_comm]

theorem previousPeersFrom_eq (names : List (JsValue × JsValue)) (me : JsString)
    (onlinePeers : List Peer) (seen : List JsString) {messages : List ChatMessage}
    (hkeys : ∀ m ∈ messages, StringKeys m) :
    previousPeersFrom names me onlinePeers (seen.map .str) messages =
      ((partnerKeys messages).filter (isNewPartner me seen)).eraseDups.map
        (previousRow names onlinePeers) := by
  induction messages generalizing seen with
  | nil => rfl
  | cons m rest ih =>
      have hrest : ∀ m ∈ rest, StringKeys m :=
        fun m hm => hkeys m (List.mem_cons_of_mem _ hm)
      rw [previousPeersFrom]
      rcases conversationPartner_cases (hkeys m List.mem_cons_self) with
        ⟨key, hpartner, hother⟩ | ⟨hpartner, hfalsy⟩
      · have hpartners : partnerKeys (m :: rest) = key :: partnerKeys rest := by
          rw [partnerKeys, List.filterMap_cons, hpartner, partnerKeys]
        have hguard : (isOtherPeer me (.str key) &&
            !(seen.map JsValue.str).any fun k => k.strictEq (.str key)) =
            isNewPartner me seen key := by
          rw [isNewPartner, List.any_map, List.contains_eq_any_beq]
          congr 3
          funext k
          exact Bool.beq_comm
        simp only [hother, hguard, hpartners]
        split
        · rename_i hnew
          have hlater := ih (key :: seen) hrest
          rw [List.map_cons] at hlater
          rw [List.filter_cons_of_pos hnew, List.eraseDups_cons, List.map_cons,
            List.filter_filter, hlater,
            List.filter_congr fun k _ => isNewPartner_cons me seen key k]
          rfl
        · rename_i hold
          rw [List.filter_cons_of_neg hold]
          exact ih seen hrest
      · rw [partnerKeys, List.filterMap_cons, hpartner]
        simp only [isOtherPeer, hfalsy, Bool.false_and, Bool.false_eq_true, if_false]
        exact ih seen hrest

theorem previousRow_online (names : List (JsValue × JsValue))
    (onlinePeers : List Peer) (key : JsString) :
    (previousRow names onlinePeers key).online = isOnlineKey onlinePeers key :=
  List.isSome_find?

theorem previousRow_offline {messages : List ChatMessage} {onlinePeers : List Peer}
    {me key : JsString} (hne : key ≠ []) (hme : key ≠ me)
    (hoffline : isOnlineKey onlinePeers key = false) :
    ({ previousRow (peerNames messages me) onlinePeers key with online := false } :
      ListedPeer) = offlineRow messages key := by
  have hnone : onlinePeers.find? (fun p => p.pubKey.strictEq (.str key)) = none := by
    rw [← Option.not_isSome_iff_eq_none, List.isSome_find?]
    simpa [isOnlineKey] using hoffline
  rw [previousRow, offlineRow, hnone, find_peerNames messages hne hme]
  cases hname : latestName messages key with
  | none => rfl
  | some name =>
      have htruthy := truthy_of_latestName hname
      cases name <;> first | rfl | cases htruthy

def otherPartners (messages : List ChatMessage) (me : JsString) : List JsString :=
  ((partnerKeys messages).filter (isNewPartner me [])).eraseDups

theorem ne_of_mem_otherPartners {messages : List ChatMessage} {me key : JsString}
    (h : key ∈ otherPartners messages me) : key ≠ [] ∧ key ≠ me := by
  rw [otherPartners, List.mem_eraseDups, List.mem_filter] at h
  simpa [isNewPartner, isOtherPeer] using h.2

theorem getPreviousPeers_eq {messages : List ChatMessage} (me : JsString)
    (onlinePeers : List Peer) (hkeys : ∀ m ∈ messages, StringKeys m) :
    getPreviousPeers messages me onlinePeers =
      sortOnlineFirst ((otherPartners messages me).map
        (previousRow (peerNames messages me) onlinePeers)) := by
  rw [getPreviousPeers]
  exact congrArg sortOnlineFirst
    (previousPeersFrom_eq (peerNames messages me) me onlinePeers [] hkeys)

theorem mem_getPreviousPeers {messages : List ChatMessage} {me : JsString}
    {onlinePeers : List Peer} (hkeys : ∀ m ∈ messages, StringKeys m)
    {p : ListedPeer} (hp : p ∈ getPreviousPeers messages me onlinePeers) :
    ∃ key ∈ otherPartners messages me,
      p = previousRow (peerNames messages me) onlinePeers key := by
  rw [getPreviousPeers_eq me onlinePeers hkeys, sortOnlineFirst,
    List.mem_insertionSort] at hp
  obtain ⟨key, hkey, rfl⟩ := List.mem_map.mp hp
  exact ⟨key, hkey, rfl⟩

theorem nodup_getPreviousPeers {messages : List ChatMessage} (me : JsString)
    (onlinePeers : List Peer) (hkeys : ∀ m ∈ messages, StringKeys m) :
    ((getPreviousPeers messages me onlinePeers).map fun p =>
      keyText p.pubKey).Nodup := by
  rw [getPreviousPeers_eq me onlinePeers hkeys, sortOnlineFirst]
  refine ((List.perm_insertionSort _ _).map _).nodup_iff.mpr ?_
  rw [List.map_map]
  refine (List.map_id _).symm ▸ nodup_eraseDups _

theorem offline_getPreviousPeers {messages : List ChatMessage} (me : JsString)
    (onlinePeers : List Peer) (hkeys : ∀ m ∈ messages, StringKeys m) :
    ((getPreviousPeers messages me onlinePeers).filter fun p => !p.online).map
        (fun p => ({ p with online := false } : ListedPeer)) =
      ((otherPartners messages me).filter fun key =>
        !isOnlineKey onlinePeers key).map (offlineRow messages) := by
  rw [getPreviousPeers_eq me onlinePeers hkeys, filter_sortOnlineFirst,
    List.filter_map, List.map_map]
  simp only [Function.comp_def, previousRow_online]
  apply List.map_congr_left
  intro key hkey
  obtain ⟨hmem, hoffline⟩ := List.mem_filter.mp hkey
  rw [Bool.not_eq_true'] at hoffline
  obtain ⟨hne, hme⟩ := ne_of_mem_otherPartners hmem
  exact previousRow_offline hne hme hoffline

theorem filter_otherPartners (messages : List ChatMessage) (onlinePeers : List Peer)
    (me : JsString) :
    ((otherPartners messages me).filter fun key => !isOnlineKey onlinePeers key) =
      (((partnerKeys messages).filter fun key => key ≠ []).filter fun key =>
        key ≠ me && !isOnlineKey onlinePeers key).eraseDups := by
  rw [otherPartners, filter_eraseDups, List.filter_filter,
    List.filter_filter]
  congr 1
  apply List.filter_congr
  intro key _
  rw [Bool.eq_iff_iff]
  simp only [isNewPartner, isOtherPeer, Bool.and_eq_true, Bool.not_eq_true',
    JsValue.truthy_str, decide_eq_true_eq, JsValue.str_strictEq_str,
    beq_eq_false_iff_ne, List.contains_nil, and_true]
  tauto

/-! ## The sidebar -/

/--
The sidebar is complete, in order and without duplicates.  The partners are those
with a key: the guard `other &&` drops an empty one.
-/
theorem directMessagesPeerList_eq (messages : List ChatMessage)
    (onlinePeers : List Peer) (me : JsString)
    (honline : ∀ p ∈ onlinePeers, ∃ key, p.pubKey = .str key)
    (hmessages : ∀ m ∈ messages, StringKeys m) :
    getDirectMessagesPeerList onlinePeers
        (getPreviousPeers messages me onlinePeers) me =
      intendedPeerList ((partnerKeys messages).filter fun key => key ≠ [])
        messages onlinePeers me := by
  have hholds := holds_online me honline
  have hprevious : ∀ p ∈ getPreviousPeers messages me onlinePeers,
      ∃ key, key ≠ me ∧ p.pubKey = .str key := by
    intro p hp
    obtain ⟨key, hkey, rfl⟩ := mem_getPreviousPeers hmessages hp
    exact ⟨key, (ne_of_mem_otherPartners hkey).2, rfl⟩
  have hoffline : ((getPreviousPeers messages me onlinePeers).filter fun p =>
      !(onlineMap onlinePeers me).has (keyText p.pubKey)) =
      (getPreviousPeers messages me onlinePeers).filter fun p => !p.online := by
    apply List.filter_congr
    intro p hp
    obtain ⟨key, hkey, rfl⟩ := mem_getPreviousPeers hmessages hp
    rw [previousRow_online]
    exact congrArg _ (has_onlineMap (ne_of_mem_otherPartners hkey).2 honline)
  unfold getDirectMessagesPeerList
  simp only
  rw [foldl_previous hholds (nodup_getPreviousPeers me onlinePeers hmessages) hprevious,
    hoffline, offline_getPreviousPeers me onlinePeers hmessages, hholds.rows_eq,
    values_onlineMap me honline, keys_onlineMap, filter_otherPartners, intendedPeerList]
  apply sortOnlineFirst_append
  · intro p hp
    obtain ⟨key, -, rfl⟩ := List.mem_map.mp hp
    rfl
  · intro p hp
    obtain ⟨key, -, rfl⟩ := List.mem_map.mp hp
    rfl

def shortEntry (fromMe : Bool) (peerId recipient name : String) : ChatMessage where
  id := .str []
  text := .str []
  signatureHex := .str []
  fromMe := .bool fromMe
  displayName := .str (js name)
  peerId := .str (js peerId)
  recipient := .str (js recipient)
  «at» := .num (.finite 0)
  type := .str privateType
  roomId := .undefined

def shortPeer (key name : String) : Peer :=
  ⟨.str (js key), .str (js name), .str (js key)⟩

theorem stringKeys_shortEntry (fromMe : Bool) (peerId recipient name : String) :
    StringKeys (shortEntry fromMe peerId recipient name) :=
  ⟨⟨_, rfl⟩, .inr ⟨_, rfl⟩⟩

theorem directMessagesPeerList_eq_short :
    getDirectMessagesPeerList
        [shortPeer "a" "A", shortPeer "m" "M", shortPeer "b" "B", shortPeer "a" "A2"]
        (getPreviousPeers [shortEntry true "m" "c" "M", shortEntry false "d" "m" "D",
          shortEntry true "m" "Broadcast" "M", shortEntry false "a" "m" "A",
          shortEntry false "d" "Broadcast" "D2"] (js "m")
          [shortPeer "a" "A", shortPeer "m" "M", shortPeer "b" "B", shortPeer "a" "A2"])
        (js "m") =
      [⟨shortPeer "a" "A2", true⟩, ⟨shortPeer "b" "B", true⟩,
        ⟨shortPeer "c" "c", false⟩, ⟨shortPeer "d" "D2", false⟩] := by
  rw [directMessagesPeerList_eq]
  · rfl
  · simp [shortPeer]
  · simp [stringKeys_shortEntry]

theorem no_row_for_empty_recipient :
    ¬ ∀ (messages : List ChatMessage) (onlinePeers : List Peer) (me : JsString),
      (∀ p ∈ onlinePeers, ∃ key, key ≠ [] ∧ p.pubKey = .str key) →
      (∀ m ∈ messages, StringKeys m) →
      getDirectMessagesPeerList onlinePeers
          (getPreviousPeers messages me onlinePeers) me =
        intendedPeerList (partnerKeys messages) messages onlinePeers me := by
  intro hall
  have h := hall [shortEntry true "m" "" "M"] [] (js "m") nofun (by
    intro m hm
    rw [List.mem_singleton.mp hm]
    exact stringKeys_shortEntry _ _ _ _)
  exact absurd (congrArg List.length h) (by decide)

end CommonChat.Frontend
