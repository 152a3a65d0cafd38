import CommonChat.Frontend.Views

/-!
# Unread marks

A mark in the sidebar stands for private messages that arrived while their view
was not open.  The page keeps the marks apart from the messages: they are set
outside the duplicate check and by recipient alone.  The runs here carry along
how far each direct view was read, so that a mark can be compared with what is
listed.
-/

namespace CommonChat.Frontend

open CommonChat.Foundation
open CommonChat.Core
open CommonChat.Relay

variable {H : Host}

def Tab.views (tab : Tab H) (p : JsString) : Bool :=
  tab.activeView = .direct && tab.activeDirectPeerId.strictEq (.str p)

def IsNews (e : ChatMessage) (p : JsString) : Prop :=
  e.fromMe.truthy = false ∧ isPrivateMessageWith e (.str p) = true

/-- There is news from the peer since the page load, after the first `since` entries. -/
def Tab.HasNews (tab : Tab H) (since : Nat) (p : JsString) : Prop :=
  ∃ e ∈ tab.messages.drop (max tab.loaded since), IsNews e p

def Tab.readNow (tab : Tab H) (read : JsString → Nat) (p : JsString) : Nat :=
  if tab.views p then tab.messages.length else read p

/--
The clients, with the number of entries that each tab listed when the direct view
of a peer was last active.
-/
structure Watched (H : Host) where
  clients : Clients H
  read : TabId → JsString → Nat

def Watched.readAfter (s : Watched H) (c : Clients H) (t : TabId) : JsString → Nat :=
  match c.tabs t with
  | some tab => tab.readNow (s.read t)
  | none => s.read t

def Watched.step (s : Watched H) (a : ClientAction) : Option (Watched H) :=
  (s.clients.step a).map fun clients => ⟨clients, s.readAfter clients⟩

def watchedSystem (H : Host) : System (Watched H) ClientAction :=
  ⟨⟨.initial H, fun _ _ => 0⟩, Watched.step⟩

/-! ## What a tab keeps -/

structure ExactMarks (tab : Tab H) (read : JsString → Nat) : Prop where
  read_le : ∀ p, read p ≤ tab.messages.length
  viewed : ∀ p, tab.views p = true → read p = tab.messages.length
  marked : ∀ p, .str p ∈ tab.unreadPeers ↔ tab.HasNews (read p) p

theorem not_hasNews_of_drop {tab : Tab H} {since : Nat} {p : JsString}
    (h : tab.messages.drop (max tab.loaded since) = []) : ¬ tab.HasNews since p := by
  rintro ⟨e, he, -⟩
  rw [h] at he
  cases he

theorem ExactMarks.not_marked_of_views {tab : Tab H} {read : JsString → Nat}
    (h : ExactMarks tab read) {p : JsString} (hviews : tab.views p = true) :
    .str p ∉ tab.unreadPeers := by
  rw [h.marked]
  apply not_hasNews_of_drop
  apply List.drop_eq_nil_of_le
  rw [h.viewed p hviews]
  exact Nat.le_max_right _ _

theorem exactMarks_readNow {tab : Tab H} {read : JsString → Nat}
    (hread : ∀ p, read p ≤ tab.messages.length)
    (hviewed : ∀ p, tab.views p = true → .str p ∉ tab.unreadPeers)
    (hmarked : ∀ p, tab.views p = false →
      (.str p ∈ tab.unreadPeers ↔ tab.HasNews (read p) p)) :
    ExactMarks tab (tab.readNow read) := by
  refine ⟨?_, ?_, ?_⟩
  · intro p
    unfold Tab.readNow
    split
    · exact Nat.le_refl _
    · exact hread p
  · intro p hviews
    rw [Tab.readNow, if_pos hviews]
  · intro p
    cases hviews : tab.views p with
    | true =>
        rw [Tab.readNow, if_pos hviews]
        refine ⟨fun h => absurd h (hviewed p hviews), fun h => absurd h ?_⟩
        apply not_hasNews_of_drop
        exact List.drop_eq_nil_of_le (Nat.le_max_right _ _)
    | false =>
        rw [Tab.readNow, if_neg (by simp [hviews])]
        exact hmarked p hviews

theorem ExactMarks.of_same {tab tab' : Tab H} {read : JsString → Nat}
    (h : ExactMarks tab read) (hmessages : tab'.messages = tab.messages)
    (hloaded : tab'.loaded = tab.loaded)
    (hunread : ∀ p, .str p ∈ tab'.unreadPeers ↔ .str p ∈ tab.unreadPeers)
    (hviews : ∀ p, tab'.views p = true → tab.views p = true) :
    ExactMarks tab' (tab'.readNow read) := by
  apply exactMarks_readNow
  · rw [hmessages]
    exact h.read_le
  · intro p hp
    rw [hunread]
    exact h.not_marked_of_views (hviews p hp)
  · intro p _
    rw [hunread, h.marked, Tab.HasNews, Tab.HasNews, hmessages, hloaded]

theorem ExactMarks.openDirectWith {tab : Tab H} {read : JsString → Nat}
    (h : ExactMarks tab read) (peer : JsValue) :
    ExactMarks (tab.openDirectWith peer) ((tab.openDirectWith peer).readNow read) := by
  have hviews : ∀ p, (tab.openDirectWith peer).views p = peer.strictEq (.str p) :=
    fun p => Bool.true_and _
  have hunread : ∀ p, .str p ∈ (tab.openDirectWith peer).unreadPeers ↔
      .str p ∈ tab.unreadPeers ∧ (JsValue.str p).strictEq peer = false := by
    intro p
    simp [Tab.openDirectWith, List.mem_filter]
  apply exactMarks_readNow
  · exact h.read_le
  · intro p hp
    rw [hviews] at hp
    rw [hunread, strictEq_comm_str, hp]
    simp
  · intro p hp
    rw [hviews] at hp
    rw [hunread, strictEq_comm_str, hp, h.marked]
    exact and_iff_left rfl

theorem ExactMarks.append {tab tab' : Tab H} {read : JsString → Nat}
    (h : ExactMarks tab read) {e : ChatMessage}
    (happend : tab'.messages = tab.messages ++ [e])
    (hsame : tab'.loaded = tab.loaded) (hloaded : tab.loaded ≤ tab.messages.length)
    (hviews : ∀ p, tab'.views p = tab.views p)
    (hunread : ∀ p, .str p ∈ tab'.unreadPeers ↔
      .str p ∈ tab.unreadPeers ∨ (tab.views p = false ∧ IsNews e p)) :
    ExactMarks tab' (tab'.readNow read) := by
  apply exactMarks_readNow
  · intro p
    rw [happend, List.length_append]
    exact (h.read_le p).trans (Nat.le_add_right _ _)
  · intro p hp
    rw [hviews] at hp
    rw [hunread, hp]
    simpa using h.not_marked_of_views hp
  · intro p hp
    rw [hviews] at hp
    rw [hunread, h.marked, Tab.HasNews, Tab.HasNews, happend, hsame,
      List.drop_append_of_le_length (Nat.max_le.mpr ⟨hloaded, h.read_le p⟩)]
    simp only [List.mem_append, List.mem_singleton, hp, true_and]
    constructor
    · rintro (⟨e', hold, hshown⟩ | hnews)
      · exact ⟨e', .inl hold, hshown⟩
      · exact ⟨e, .inr rfl, hnews⟩
    · rintro ⟨e', hold | rfl, hshown⟩
      · exact .inl ⟨e', hold, hshown⟩
      · exact .inr hshown

/-! ## What a delivery does -/

theorem mem_markUnread (tab : Tab H) {e : ChatMessage} {q : JsString}
    (hq : e.peerId = .str q) (p : JsString) :
    .str p ∈ tab.markUnread e ↔ .str p ∈ tab.unreadPeers ∨
      (Tab.addressee e = .str tab.peerId ∧ q ≠ tab.peerId ∧ tab.views q = false ∧
        p = q) := by
  have hguard : ((e.recipient.coalesce (.str broadcastId)).strictEq (.str tab.peerId) &&
      !e.peerId.strictEq (.str tab.peerId)) = true ↔
      Tab.addressee e = .str tab.peerId ∧ q ≠ tab.peerId := by
    rw [hq]
    simp [Tab.addressee]
  have hknown : (tab.unreadPeers.any fun p => p.strictEq e.peerId) = true ↔
      .str q ∈ tab.unreadPeers := by
    rw [hq]
    simp
  unfold Tab.markUnread
  split
  · rename_i hmarks
    rw [hguard] at hmarks
    rw [hq, ← Tab.views]
    split
    · rename_i hviews
      simp [hviews]
    rename_i hviews
    rw [Bool.not_eq_true] at hviews
    rw [hq] at hknown
    split
    · rename_i hold
      rw [hknown] at hold
      constructor
      · exact .inl
      · rintro (hp | ⟨-, -, -, rfl⟩)
        · exact hp
        · exact hold
    · rw [List.mem_append, List.mem_singleton, JsValue.str.injEq]
      simp [hmarks, hviews]
  · rename_i hmarks
    rw [hguard] at hmarks
    constructor
    · exact .inl
    · rintro (hold | ⟨hto, hne, -⟩)
      · exact hold
      · exact absurd ⟨hto, hne⟩ hmarks

theorem effectiveType_effectiveType (m : ChatMessage) (fromMe : JsValue) :
    Tab.effectiveType { m with fromMe := fromMe, type := Tab.effectiveType m } =
      Tab.effectiveType m := by
  have hdefault : (if (Tab.addressee m).strictEq (.str broadcastId)
      then JsValue.str generalType else .str privateType).isNullish = false := by
    split <;> rfl
  have hset : (Tab.effectiveType m).isNullish = false := by
    unfold Tab.effectiveType JsValue.coalesce
    split
    · exact hdefault
    · rename_i hset
      simpa using hset
  rw [Tab.effectiveType, JsValue.coalesce, if_neg (by simp [hset])]

theorem news_incoming_iff {me : JsString} {m e : ChatMessage} {q : JsString}
    (h : Tab.incoming H me m = some e) (hq : m.peerId = .str q) (p : JsString) :
    IsNews e p ↔ q ≠ me ∧ Tab.effectiveType m = .str privateType ∧ p = q := by
  obtain ⟨-, -, -, -, rfl⟩ := (Tab.incoming_eq_some_iff me m e).mp h
  rw [IsNews, isPrivateMessageWith, effectiveType_effectiveType, hq]
  by_cases hme : q = me
  · simp [hme, JsValue.truthy]
  · by_cases hprivate : Tab.effectiveType m = .str privateType
    · have hshown : q = p ↔ p = q := eq_comm
      simp [hme, hprivate, JsValue.truthy, hshown]
    · simp [hme, hprivate]

/--
The condition on a delivery: if it would mark a peer that is not marked, it is a
private message under an id that is not listed.
-/
def MarksListed (c : Clients H) : ClientAction → Prop
  | .receive t (.message payload) => ∀ tab, c.tabs t = some tab →
      Accepted H tab.peerId (.ofJs payload) →
      Tab.addressee (.ofJs payload) = .str tab.peerId →
      ∀ q, (ChatMessage.ofJs payload).peerId = .str q → q ≠ tab.peerId →
      tab.views q = false → .str q ∉ tab.unreadPeers →
      Tab.effectiveType (.ofJs payload) = .str privateType ∧
        ∀ e ∈ tab.messages, e.id.strictEq (ChatMessage.ofJs payload).id = false
  | _ => True

theorem onMessage_eq {tab : Tab H} {m e : ChatMessage}
    (hin : Tab.incoming H tab.peerId m = some e) :
    tab.onMessage m = { tab with
      messages := Tab.appendNew tab.messages e, unreadPeers := tab.markUnread e } := by
  simp only [Tab.onMessage, hin]

theorem ExactMarks.onMessage {c : Clients H} {t : TabId} {tab : Tab H}
    {read : JsString → Nat} (h : ExactMarks tab read)
    (hloaded : tab.loaded ≤ tab.messages.length) (htab : c.tabs t = some tab)
    {payload : JsValue} (hguard : MarksListed c (.receive t (.message payload))) :
    ExactMarks (tab.onMessage (.ofJs payload))
      ((tab.onMessage (.ofJs payload)).readNow read) := by
  cases hin : Tab.incoming H tab.peerId (.ofJs payload) with
  | none =>
      have hsame : tab.onMessage (.ofJs payload) = tab := by
        simp only [Tab.onMessage, hin]
      rw [hsame]
      exact h.of_same rfl rfl (fun _ => Iff.rfl) (fun _ hp => hp)
  | some e =>
      obtain ⟨q, -, hq, -⟩ := spells_of_incoming hin
      obtain ⟨-, -, hprivate, -, he⟩ := (Tab.incoming_eq_some_iff _ _ e).mp hin
      have hmark := mem_markUnread tab (show e.peerId = .str q by rw [he, ← hq])
      have haddressee : Tab.addressee e = Tab.addressee (.ofJs payload) := by
        rw [he]
        rfl
      rw [haddressee] at hmark
      have hnews := news_incoming_iff hin hq
      have hlisted := hguard tab htab (accepted_of_incoming hin)
      rw [onMessage_eq hin, Tab.appendNew]
      by_cases hknown : (tab.messages.any fun m => m.id.strictEq e.id) = true
      · rw [if_pos hknown]
        refine h.of_same rfl rfl ?_ (fun _ hp => hp)
        intro p
        rw [hmark]
        refine ⟨?_, .inl⟩
        rintro (hold | ⟨hto, hne, hviews, rfl⟩)
        · exact hold
        · by_contra hunmarked
          obtain ⟨m, hm, hid⟩ := List.any_eq_true.mp hknown
          rw [show e.id = (ChatMessage.ofJs payload).id by rw [he],
            (hlisted hto p hq hne hviews hunmarked).2 m hm] at hid
          cases hid
      · rw [if_neg hknown]
        refine h.append rfl rfl hloaded (fun _ => rfl) ?_
        intro p
        rw [hmark, hnews]
        constructor
        · rintro (hold | ⟨hto, hne, hviews, rfl⟩)
          · exact .inl hold
          · by_cases hmarked : JsValue.str p ∈ tab.unreadPeers
            · exact .inl hmarked
            · exact .inr ⟨hviews, hne, (hlisted hto p hq hne hviews hmarked).1, rfl⟩
        · rintro (hold | ⟨hviews, hne, htype, rfl⟩)
          · exact .inl hold
          · exact .inr ⟨hprivate htype, hne, hviews, rfl⟩

theorem ExactMarks.marked_without_news {tab : Tab H} {read : JsString → Nat}
    (h : ExactMarks tab read) (hloaded : tab.loaded ≤ tab.messages.length)
    {m e : ChatMessage} (hin : Tab.incoming H tab.peerId m = some e)
    (hto : Tab.addressee m = .str tab.peerId) {q : JsString} (hq : m.peerId = .str q)
    (hne : q ≠ tab.peerId) (hviews : tab.views q = false)
    (hunmarked : .str q ∉ tab.unreadPeers)
    (hbad : ¬ (Tab.effectiveType m = .str privateType ∧
      ∀ e ∈ tab.messages, e.id.strictEq m.id = false)) :
    .str q ∈ (tab.onMessage m).unreadPeers ∧
      ¬ (tab.onMessage m).HasNews (read q) q := by
  obtain ⟨-, -, -, -, he⟩ := (Tab.incoming_eq_some_iff _ _ e).mp hin
  have haddressee : Tab.addressee e = Tab.addressee m := by
    rw [he]
    rfl
  rw [onMessage_eq hin]
  refine ⟨?_, ?_⟩
  · exact (mem_markUnread tab (show e.peerId = .str q by rw [he, ← hq]) q).mpr
      (.inr ⟨haddressee.trans hto, hne, hviews, rfl⟩)
  · rw [h.marked] at hunmarked
    rintro ⟨e', he', hnews⟩
    simp only [Tab.appendNew] at he'
    split at he'
    · exact hunmarked ⟨e', he', hnews⟩
    · rename_i hnew
      rw [List.drop_append_of_le_length (Nat.max_le.mpr ⟨hloaded, h.read_le q⟩)] at he'
      rcases List.mem_append.mp he' with hold | hlast
      · exact hunmarked ⟨e', hold, hnews⟩
      · rw [List.mem_singleton.mp hlast, news_incoming_iff hin hq] at hnews
        refine hbad ⟨hnews.2.1, ?_⟩
        rw [← show e.id = m.id by rw [he]]
        simpa using hnew

theorem ExactMarks.onRelayEvent {c : Clients H} {t : TabId} {tab : Tab H}
    {read : JsString → Nat} (h : ExactMarks tab read)
    (hloaded : tab.loaded ≤ tab.messages.length) (htab : c.tabs t = some tab)
    {event : RelayEvent} (hguard : MarksListed c (.receive t event)) :
    ExactMarks (tab.onRelayEvent event) ((tab.onRelayEvent event).readNow read) := by
  cases event with
  | onlineList list => exact h.of_same rfl rfl (fun _ => Iff.rfl) (fun _ hp => hp)
  | userOnline user =>
      simp only [Tab.onRelayEvent, Tab.onUserOnline]
      split
      · exact h.of_same rfl rfl (fun _ => Iff.rfl) (fun _ hp => hp)
      · split <;> exact h.of_same rfl rfl (fun _ => Iff.rfl) (fun _ hp => hp)
  | userOffline data =>
      simp only [Tab.onRelayEvent, Tab.onUserOffline]
      split
      · exact h.of_same rfl rfl (fun _ => Iff.rfl) (fun _ hp => hp)
      · split <;> exact h.of_same rfl rfl (fun _ => Iff.rfl) (fun _ hp => hp)
  | message payload => exact h.onMessage hloaded htab hguard

/-! ## Runs -/

theorem loadStored_unreadPeers (b : BrowserId) (storage : LocalStorage) :
    ((Tab.fresh H b).loadStored storage).unreadPeers = [] := by
  unfold Tab.loadStored
  split
  · rfl
  split
  · split <;> rfl
  · rfl

theorem loadEffect_unreadPeers (tab : Tab H) (storage : LocalStorage) :
    (tab.loadEffect storage).unreadPeers = tab.unreadPeers := by
  unfold Tab.loadEffect
  split
  · rfl
  split
  · rfl
  split <;> rfl

theorem exactMarks_loadEffect {tab : Tab H} (storage : LocalStorage)
    (hmessages : tab.messages = []) (hunread : ∀ p, .str p ∉ tab.unreadPeers) :
    ExactMarks (tab.loadEffect storage)
      ((tab.loadEffect storage).readNow fun _ => 0) := by
  have hnone : ∀ p, .str p ∉ (tab.loadEffect storage).unreadPeers := by
    rw [loadEffect_unreadPeers]
    exact hunread
  apply exactMarks_readNow
  · exact fun _ => Nat.zero_le _
  · exact fun p _ => hnone p
  · intro p _
    refine ⟨fun hp => absurd hp (hnone p), fun hnews => absurd hnews ?_⟩
    apply not_hasNews_of_drop
    rw [Nat.max_zero]
    exact Clients.drop_loadEffect storage hmessages

namespace Watched

structure Exact (s : Watched H) : Prop where
  tabs : ∀ t tab, s.clients.tabs t = some tab → ExactMarks tab (s.read t)
  unread : ∀ t, s.clients.tabs t = none → s.read t = fun _ => 0

theorem clients_of_reach {ok : Watched H → ClientAction → Prop}
    {ok' : Clients H → ClientAction → Prop}
    (hok : ∀ s a, ok s a → ok' s.clients a) {s : Watched H}
    (hs : (watchedSystem H).Reach ok s) :
    (Clients.system H).Reach ok' s.clients := by
  refine hs.project Watched.clients rfl ?_
  intro s a s' _ hguard hnext
  obtain ⟨clients, hclients, rfl⟩ := Option.map_eq_some_iff.mp hnext
  exact .inr ⟨a, hok s a hguard, hclients⟩

theorem Exact.change {s : Watched H} (h : s.Exact) {a : ClientAction}
    {c' : Clients H} (hstep : s.clients.AllInStep) (hfresh : s.clients.FreshTab)
    (hloaded : ∀ t tab, s.clients.tabs t = some tab →
      tab.loaded ≤ tab.messages.length)
    (hguard : MarksListed s.clients a) (hchange : Clients.Change s.clients a c') :
    ∀ t tab, c'.tabs t = some tab → ExactMarks tab (tab.readNow (s.read t)) := by
  refine Clients.forall_numbered_of_change hchange ?_ ?_ ?_ ?_ ?_ ?_ ?_ ?_
  · exact fun t tab htab =>
      (h.tabs t tab htab).of_same rfl rfl (fun _ => Iff.rfl) (fun _ hp => hp)
  · intro b storage
    rw [h.unread _ (hfresh _ (Nat.le_refl _))]
    refine exactMarks_loadEffect storage (Clients.loadStored_messages b storage) ?_
    rw [loadStored_unreadPeers]
    exact fun _ => List.not_mem_nil
  · intro t tab storage name random htab hnew
    have hnil := (hstep t tab htab).messages_eq_nil hnew
    have hread : s.read t = fun _ => 0 := by
      funext p
      have hle := (h.tabs t tab htab).read_le p
      rw [hnil] at hle
      exact Nat.le_zero.mp hle
    rw [hread]
    refine exactMarks_loadEffect storage hnil ?_
    intro p hp
    rw [Tab.adopt, (h.tabs t tab htab).marked] at hp
    exact not_hasNews_of_drop (by rw [hnil, List.drop_nil]) hp
  · exact fun t tab _ htab _ =>
      (h.tabs t tab htab).of_same rfl rfl (fun _ => Iff.rfl) (fun _ hp => hp)
  · intro t tab roomId htab
    refine (h.tabs t tab htab).of_same rfl rfl (fun _ => Iff.rfl) ?_
    intro p hp
    cases hp
  · exact fun t tab peer htab _ => (h.tabs t tab htab).openDirectWith peer.pubKey
  · intro t tab input now random msg htab hmsg
    refine (h.tabs t tab htab).append rfl rfl (hloaded t tab htab) (fun _ => rfl) ?_
    obtain ⟨-, -, identity, -, rfl⟩ := Tab.composeMessage_eq_some hmsg
    intro p
    simp [IsNews, JsValue.truthy]
  · rintro t tab event rfl htab _
    exact (h.tabs t tab htab).onRelayEvent (hloaded t tab htab) htab hguard

theorem exact_of_reach {s : Watched H}
    (hs : (watchedSystem H).Reach (fun s => MarksListed s.clients) s) : s.Exact := by
  refine hs.invariant ⟨(fun _ _ htab => by cases htab), fun _ _ => rfl⟩ ?_
  intro s a s' hreach h hguard hnext
  obtain ⟨c', hc', rfl⟩ := Option.map_eq_some_iff.mp hnext
  have hclients : (Clients.system H).Reach MarksListed s.clients :=
    clients_of_reach (fun _ _ hok => hok) hreach
  have hchange := Clients.change_of_step hc'
  have htabs := h.change (Clients.allInStep_of_reach hclients)
    (Clients.freshTab_of_reach hclients) (Clients.loaded_le_of_reach hclients) hguard
    hchange
  refine ⟨?_, ?_⟩
  · intro t tab htab
    replace htab : c'.tabs t = some tab := htab
    change ExactMarks tab (s.readAfter c' t)
    rw [readAfter, htab]
    exact htabs t tab htab
  · intro t hnone
    replace hnone : c'.tabs t = none := hnone
    have hbefore : s.clients.tabs t = none := by
      by_contra hsome
      exact Clients.tabs_ne_none_of_change hchange hsome hnone
    change s.readAfter c' t = _
    rw [readAfter, hnone]
    exact h.unread t hbefore

/--
The unread mark is exact in every run in which a delivery that marks a peer
lists a private message of that peer.
-/
theorem unread_iff_hasNews {s : Watched H}
    (hs : (watchedSystem H).Reach (fun s => MarksListed s.clients) s)
    {t : TabId} {tab : Tab H} (htab : s.clients.tabs t = some tab) (p : JsString) :
    .str p ∈ tab.unreadPeers ↔ tab.HasNews (s.read t p) p :=
  ((exact_of_reach hs).tabs t tab htab).marked p

def MarksExact (s : Watched H) : Prop :=
  ∀ t tab, s.clients.tabs t = some tab → ∀ p,
    .str p ∈ tab.unreadPeers ↔ tab.HasNews (s.read t p) p

theorem marksListed_of_step {s s' : Watched H} {a : ClientAction} (h : s.Exact)
    (hloaded : ∀ t tab, s.clients.tabs t = some tab →
      tab.loaded ≤ tab.messages.length)
    (hnext : s.step a = some s') (hexact : s'.MarksExact) :
    MarksListed s.clients a := by
  obtain ⟨c', hc', rfl⟩ := Option.map_eq_some_iff.mp hnext
  cases Clients.change_of_step hc' with
  | @receive t tab htab hwants event =>
      cases event with
      | message payload =>
          intro tab' htab' haccepted hto q hq hne hviews hunmarked
          obtain rfl : tab = tab' := Option.some.inj (htab.symm.trans htab')
          by_contra hbad
          obtain ⟨e, hin⟩ := incoming_of_accepted haccepted
          obtain ⟨hmarked, hnone⟩ := (h.tabs t tab htab).marked_without_news
            (hloaded t tab htab) hin hto hq hne hviews hunmarked hbad
          have hread : s.readAfter (s.clients.setTab t
              (tab.onRelayEvent (.message payload))) t q = s.read t q := by
            have hviews' : (tab.onRelayEvent (.message payload)).views q = false := by
              rw [Tab.views, (onRelayEvent_view tab _).1, (onRelayEvent_view tab _).2]
              exact hviews
            simp only [readAfter, Clients.setTab_self, Tab.readNow, hviews',
              Bool.false_eq_true, if_false]
          have hnews := (hexact t _ (Clients.setTab_self _ _ _) q).mp hmarked
          simp only [hread] at hnews
          exact hnone hnews
      | _ => trivial
  | _ => trivial

/-- The runs with exact marks in every state are those that meet the condition. -/
theorem reach_marksListed_iff (s : Watched H) :
    (watchedSystem H).Reach (fun s => MarksListed s.clients) s ↔
      (watchedSystem H).Reach
        (fun s a => ∀ s', s.step a = some s' → s'.MarksExact) s := by
  constructor
  · intro hs
    induction hs with
    | initial => exact .initial
    | @step s s' a hreach hok hnext ih =>
        refine .step ih ?_ hnext
        intro s'' hnext' t tab htab
        exact ((exact_of_reach (.step hreach hok hnext')).tabs t tab htab).marked
  · intro hs
    induction hs with
    | initial => exact .initial
    | @step s s' a hreach hok hnext ih =>
        refine .step ih ?_ hnext
        have hclients : (Clients.system H).Reach MarksListed s.clients :=
          clients_of_reach (fun _ _ hok => hok) ih
        exact marksListed_of_step (exact_of_reach ih)
          (Clients.loaded_le_of_reach hclients) hnext (hok s' hnext)

def deliversNew (s : Watched plainHost) : ClientAction → Bool
  | .receive t (.message payload) =>
      (s.clients.tabs t).all fun tab =>
        (Tab.effectiveType (.ofJs payload)).strictEq (.str privateType) &&
          tab.messages.all fun e => !e.id.strictEq (ChatMessage.ofJs payload).id
  | _ => true

theorem marksListed_of_deliversNew (s : Watched plainHost) (a : ClientAction)
    (h : s.deliversNew a = true) : MarksListed s.clients a := by
  cases a with
  | receive t event =>
      cases event with
      | message payload =>
          intro tab htab _ _ _ _ _ _ _
          simpa [deliversNew, htab] using h
      | _ => trivial
  | _ => trivial

theorem unread_iff_hasNews_again :
    ∃ s : Watched plainHost,
      (watchedSystem plainHost).Reach (fun s => MarksListed s.clients) s ∧
      ∃ tab, s.clients.tabs 0 = some tab ∧ s.read 0 (plainPeer 2) = 1 ∧
        .str (plainPeer 2) ∈ tab.unreadPeers ∧ tab.HasNews 1 (plainPeer 2) := by
  obtain ⟨s, hs, hcheck⟩ := System.exists_reach_of_exec
    (watchedSystem plainHost) (fun s => MarksListed s.clients) deliversNew
    ([.load 0, .handleInitialize 0 (js "P") (plainKey 1),
      .receive 0 (.message (Clients.plainPrivate 2 (js "x") (js "a")).toJs),
      .openDirectWith 0 0, .openPublicRoom 0 .general,
      .receive 0 (.message (Clients.plainPrivate 2 (js "y") (js "b")).toJs)])
    (fun s => s.read 0 (plainPeer 2) = 1 && (s.clients.tabs 0).any fun tab =>
      tab.unreadPeers.any fun p => p.strictEq (.str (plainPeer 2)))
    marksListed_of_deliversNew (by decide +kernel)
  simp only [Bool.and_eq_true, decide_eq_true_eq, Option.any_eq_true,
    List.any_eq_true, JsValue.strictEq_str_iff, exists_eq_right] at hcheck
  obtain ⟨hread, tab, htab, hmarked⟩ := hcheck
  refine ⟨s, hs, tab, htab, hread, hmarked, ?_⟩
  rw [← hread]
  exact (unread_iff_hasNews hs htab (plainPeer 2)).mp hmarked

theorem marked_by_repeat :
    ¬ ∀ (H : Host) (s : Watched H), (watchedSystem H).Reach (fun _ _ => True) s →
      ∀ t tab, s.clients.tabs t = some tab → ∀ p,
        .str p ∈ tab.unreadPeers ↔ tab.HasNews (s.read t p) p := by
  intro hall
  obtain ⟨s, hs, hcheck⟩ := System.exists_reach_of_exec
    (watchedSystem plainHost) (fun _ _ => True) (fun _ _ => true)
    ([.load 0, .handleInitialize 0 (js "P") (plainKey 1),
      .receive 0 (.message (Clients.plainPrivate 2 (js "x") (js "a")).toJs),
      .openDirectWith 0 0, .openPublicRoom 0 .general,
      .receive 0 (.message (Clients.plainPrivate 2 (js "x") (js "a")).toJs)])
    (fun s => s.read 0 (plainPeer 2) = 1 && (s.clients.tabs 0).any fun tab =>
      tab.messages.length = 1 &&
        tab.unreadPeers.any fun p => p.strictEq (.str (plainPeer 2)))
    (fun _ _ _ => trivial) (by decide +kernel)
  simp only [Bool.and_eq_true, decide_eq_true_eq, Option.any_eq_true,
    List.any_eq_true, JsValue.strictEq_str_iff, exists_eq_right] at hcheck
  obtain ⟨hread, tab, htab, hlength, hmarked⟩ := hcheck
  have hnews := (hall plainHost s hs 0 tab htab (plainPeer 2)).mp hmarked
  refine not_hasNews_of_drop ?_ hnews
  apply List.drop_eq_nil_of_le
  rw [hread, hlength]
  exact Nat.le_max_right _ _

end Watched

end CommonChat.Frontend
