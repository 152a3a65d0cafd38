import CommonChat.Frontend.Admission
import CommonChat.Frontend.Authenticity
import CommonChat.Network.World

/-!
# Replay

The signature covers the text and the namespace, and nothing else.  A text that
an honest party sent can therefore be listed again under other metadata; what
holds for every run with adversarial clients is agreement on the text, and a
bound on the listings that keep an id of the sender.
-/

namespace CommonChat.Network

open CommonChat.Foundation
open CommonChat.Core
open CommonChat.Relay
open CommonChat.Frontend

variable {H : Host}

def World.Unforged (pk : PublicKey) (w : World H) (a : Action) : Prop :=
  ∀ b, w.clientAction a = some b → w.clients.Unforged pk b

def World.genuine (w : World H) (a : Action) : Bool :=
  match w.clientAction a with
  | some b => w.clients.genuine b
  | none => true

theorem World.unforged_of_genuine {w : World H} {a : Action}
    (h : w.genuine a = true) (pk : PublicKey) : w.Unforged pk a := by
  intro b hb
  simp only [World.genuine, hb] at h
  exact Clients.unforged_of_genuine h pk

/-! ## Addressees -/

def ForMe (me : JsString) (e : ChatMessage) : Prop :=
  e.peerId = .str me ∨ Tab.addressee e = .str broadcastId ∨
    Tab.addressee e = .str me

theorem ForMe.throughJson {me : JsString} {e : ChatMessage} (h : ForMe me e) :
    ForMe me e.throughJson := by
  rcases h with hpeer | hbroadcast | hme
  · exact .inl ((JsValue.throughJson_eq_str_iff _ _).mpr hpeer)
  · exact .inr (.inl (addressee_throughJson hbroadcast))
  · exact .inr (.inr (addressee_throughJson hme))

theorem forMe_of_reach {ok : Clients H → ClientAction → Prop} {c : Clients H}
    (hc : (Clients.system H).Reach ok c) : Clients.AllEntries ForMe c := by
  refine hc.invariant (Clients.allEntries_initial _) ?_
  intro c a c' hreach h _ hnext
  refine h.change (Clients.allInStep_of_reach hreach)
    (Clients.change_of_step hnext) (fun _ _ he => he)
    (fun _ _ he => he.throughJson) ?_ ?_
  · rintro t input now random msg tab - hsend htab
    obtain ⟨tab', identity, htab', -, hmsg, -⟩ := Clients.signAndSend_cases hsend
    obtain rfl : tab = tab' := Option.some.inj (htab.symm.trans htab')
    obtain ⟨-, -, -, -, rfl⟩ := Tab.composeMessage_eq_some hmsg
    exact .inl rfl
  · rintro t tab payload e - - hin
    obtain ⟨-, -, -, haddressed, rfl⟩ := (Tab.incoming_eq_some_iff _ _ _).mp hin
    exact .inr haddressed

/--
Agreement on texts with the relay as written.  An entry of the party with key
`pk` in the list of another peer has the bytes of a text that the party sent, and
is addressed to everyone or to that peer.
-/
theorem sent_text_of_listed (pk : PublicKey) {w : World H}
    (hw : (World.system H).Reach (World.Unforged pk) w)
    {t : TabId} {tab : Tab H} (htab : w.clients.tabs t = some tab)
    (hother : tab.peerId ≠ pubKeyText H pk) {e : ChatMessage}
    (he : e ∈ tab.messages) (hpeer : e.peerId = .str (pubKeyText H pk)) :
    (∃ text, e.text = .str text ∧
      ∃ sent ∈ w.clients.composed, sent.key = pk ∧
        encodeUtf8 sent.text = encodeUtf8 text) ∧
    (Tab.addressee e = .str broadcastId ∨ Tab.addressee e = .str tab.peerId) := by
  have hc : (Clients.system H).Reach (fun c a => c.Unforged pk a) w.clients :=
    World.reach_clients (fun _ _ b _ hok hb => hok b hb) hw
  constructor
  · exact (Clients.authentic_of_reach hc).listed t tab htab e he
      (pubKeyText H pk) hpeer (spells_pubKeyText pk)
  · rcases (forMe_of_reach hc).listed t tab htab e he with hme | haddressed
    · exact absurd (JsValue.str.inj (hme.symm.trans hpeer)) hother
    · exact haddressed

/-! ## A run with a replay -/

def readdressed : ChatMessage :=
  { plainMessage 1 (js "again") (js "hi") with
    recipient := .str (plainPeer 2)
    type := .str privateType
    roomId := .undefined }

def replaySchedule : List Action :=
  [.page (.load 0), .page (.handleInitialize 0 (js "P") (plainKey 1)),
    .page (.load 1), .page (.handleInitialize 1 (js "C") (plainKey 2)),
    .connect 0, .connect 1, .recv 0, .recv 1, .join,
    .send 0 (js "hi") 7 (js "x"), .recv 0,
    .emit 2 (.message readdressed.toJs), .recv 2,
    .deliver 1, .deliver 1, .deliver 1, .deliver 1]

theorem sent_text_of_readdressed :
    ∃ w : World plainHost,
      (World.system plainHost).Reach (World.Unforged (plainKey 1)) w ∧
      ∃ tab, w.clients.tabs 1 = some tab ∧ ∃ e ∈ tab.messages,
        e.recipient = .str (plainPeer 2) ∧
        ∃ text, e.text = .str text ∧
          ∃ sent ∈ w.clients.composed, sent.key = plainKey 1 ∧
            encodeUtf8 sent.text = encodeUtf8 text := by
  obtain ⟨w, hw, hcheck⟩ := System.exists_reach_of_exec
    (World.system plainHost) (World.Unforged (plainKey 1))
    (World.genuine) (replaySchedule)
    (fun w => (w.clients.tabs 1).any fun tab =>
      tab.peerId = plainPeer 2 && tab.messages.any fun e =>
        e.peerId.strictEq (.str (pubKeyText plainHost (plainKey 1))) &&
          e.recipient.strictEq (.str (plainPeer 2)))
    (fun _ _ h => World.unforged_of_genuine h _) (by decide +kernel)
  simp only [Option.any_eq_true, Bool.and_eq_true, decide_eq_true_eq,
    List.any_eq_true, JsValue.strictEq_str_iff] at hcheck
  obtain ⟨tab, htab, hme, e, he, hpeer, hrecipient⟩ := hcheck
  have hother : tab.peerId ≠ pubKeyText plainHost (plainKey 1) := by
    rw [hme]
    decide +kernel
  exact ⟨w, hw, tab, htab, e, he, hrecipient,
    (sent_text_of_listed (plainKey 1) hw htab hother he hpeer).1⟩

theorem context_not_agreed :
    ¬ ∀ (H : Host), H.ed25519.Correct → ∀ w : World H,
      (World.system H).Reach (fun w a => ∀ pk, w.Unforged pk a) w →
      ∀ pk t tab e, w.clients.tabs t = some tab → tab.peerId ≠ pubKeyText H pk →
        e ∈ tab.messages → e.peerId = .str (pubKeyText H pk) →
        ∃ sent ∈ w.clients.composed, sent.key = pk ∧
          e.text = .str sent.text ∧ e.recipient = sent.message.recipient ∧
          e.type = sent.message.type ∧ e.roomId = sent.message.roomId := by
  intro hall
  obtain ⟨w, hw, hcheck⟩ := System.exists_reach_of_exec
    (World.system plainHost) (fun w a => ∀ pk, w.Unforged pk a)
    (World.genuine) (replaySchedule)
    (fun w =>
      (w.clients.composed.all fun sent =>
        sent.message.recipient.strictEq (.str broadcastId)) &&
      (w.clients.tabs 1).any fun tab =>
        tab.peerId = plainPeer 2 && tab.messages.any fun e =>
          e.peerId.strictEq (.str (pubKeyText plainHost (plainKey 1))) &&
            e.recipient.strictEq (.str (plainPeer 2)))
    (fun _ _ h => World.unforged_of_genuine h) (by decide +kernel)
  simp only [Option.any_eq_true, Bool.and_eq_true, decide_eq_true_eq,
    List.any_eq_true, List.all_eq_true, JsValue.strictEq_str_iff] at hcheck
  obtain ⟨hpublic, tab, htab, hme, e, he, hpeer, hrecipient⟩ := hcheck
  have hother : tab.peerId ≠ pubKeyText plainHost (plainKey 1) := by
    rw [hme]
    decide +kernel
  obtain ⟨sent, hsent, -, -, hsame, -⟩ := hall plainHost plainEd25519_correct w hw
    (plainKey 1) 1 tab e htab hother he hpeer
  rw [hrecipient, hpublic sent hsent] at hsame
  exact absurd (JsValue.str.inj hsame) (by decide +kernel)

/-! ## Counting -/

def ForeignIdsDistinct (me : JsString) (list : List ChatMessage) : Prop :=
  list.Pairwise fun a b => ∀ s, a.id = .str s → b.id = .str s →
    a.peerId = .str me ∨ b.peerId = .str me

theorem foreignIdsDistinct_of_reach {ok : Clients H → ClientAction → Prop}
    {c : Clients H} (hc : (Clients.system H).Reach ok c) :
    Clients.AllLists ForeignIdsDistinct c := by
  refine hc.invariant Clients.allLists_initial ?_
  intro c a c' hreach h _ hnext
  refine h.change (Clients.allInStep_of_reach hreach)
    (Clients.change_of_step hnext) (fun _ => List.Pairwise.nil)
    (fun _ _ hlist => hlist) ?_ ?_ ?_
  · intro me list hlist
    refine List.pairwise_map.mpr ((hlist.sublist (List.drop_sublist _ _)).imp ?_)
    intro a b hab s ha hb
    simp only [ChatMessage.throughJson, JsValue.throughJson_eq_str_iff] at ha hb ⊢
    exact hab s ha hb
  · rintro t input now random msg tab - hsend htab
    obtain ⟨tab', identity, htab', -, hmsg, -⟩ := Clients.signAndSend_cases hsend
    obtain rfl : tab = tab' := Option.some.inj (htab.symm.trans htab')
    obtain ⟨-, -, -, -, rfl⟩ := Tab.composeMessage_eq_some hmsg
    refine List.pairwise_append.mpr
      ⟨h.listed t tab htab, List.pairwise_singleton _ _, ?_⟩
    intro a _ b hb _ _ _
    rw [List.mem_singleton.mp hb]
    exact .inr rfl
  · rintro t tab payload e - htab - hnew
    refine List.pairwise_append.mpr
      ⟨h.listed t tab htab, List.pairwise_singleton _ _, ?_⟩
    intro a ha b hb s has hbs
    rw [List.mem_singleton.mp hb] at hbs
    have hne := hnew a ha
    rw [has, hbs] at hne
    simp at hne

def sends (log : List Composed) (pk : PublicKey) (text : JsString) :
    List Composed :=
  log.filter fun sent => sent.key = pk && sent.text = text

def listings (list : List ChatMessage) (peerId text : JsString) :
    List ChatMessage :=
  list.filter fun e => e.peerId.strictEq (.str peerId) && e.text.strictEq (.str text)

def keepsId (log : List Composed) (e : ChatMessage) : Bool :=
  log.any fun sent => e.id.strictEq sent.message.id

theorem id_of_fromTab {sent : Composed} (h : Clients.FromTab H sent) :
    ∃ s, sent.message.id = .str s := by
  obtain ⟨tab, identity, input, now, random, -, -, hmsg, -⟩ := h
  obtain ⟨-, -, _, -, heq⟩ := Tab.composeMessage_eq_some hmsg
  rw [heq]
  exact ⟨_, rfl⟩

theorem kept_listings_le {ok : Clients H → ClientAction → Prop} {c : Clients H}
    (hc : (Clients.system H).Reach ok c) {t : TabId} {tab : Tab H}
    (htab : c.tabs t = some tab) {p : JsString} (hother : tab.peerId ≠ p)
    (pk : PublicKey) (text : JsString) :
    ((listings tab.messages p text).filter
      (keepsId (sends c.composed pk text))).length ≤
      (sends c.composed pk text).length := by
  have hsent : ∀ sent ∈ sends c.composed pk text, ∃ s, sent.message.id = .str s :=
    fun sent hmem => id_of_fromTab
      (Clients.fromTab_of_reach hc sent (List.mem_of_mem_filter hmem))
  have hentry : ∀ e ∈ (listings tab.messages p text).filter
      (keepsId (sends c.composed pk text)), e.peerId = .str p ∧
      ∃ sent ∈ sends c.composed pk text, e.id = sent.message.id := by
    intro e he
    simp only [listings, keepsId, List.mem_filter, Bool.and_eq_true,
      JsValue.strictEq_str_iff, List.any_eq_true] at he
    obtain ⟨⟨-, hp, -⟩, sent, hmem, hid⟩ := he
    obtain ⟨s, hs⟩ := hsent sent hmem
    refine ⟨hp, sent, hmem, ?_⟩
    rw [hs] at hid ⊢
    exact (JsValue.strictEq_str_iff _ _).mp hid
  have hsublist : ((listings tab.messages p text).filter
      (keepsId (sends c.composed pk text))).Sublist tab.messages :=
    List.filter_sublist.trans List.filter_sublist
  have hnodup : (((listings tab.messages p text).filter
      (keepsId (sends c.composed pk text))).map fun e => e.id.key 0).Nodup := by
    refine List.pairwise_map.mpr ?_
    refine (((foreignIdsDistinct_of_reach hc).listed t tab htab).sublist
      hsublist).imp_of_mem ?_
    intro a b ha hb hab hkey
    obtain ⟨hpa, sa, hsa, hida⟩ := hentry a ha
    obtain ⟨hpb, sb, hsb, hidb⟩ := hentry b hb
    obtain ⟨x, hx⟩ := hsent sa hsa
    obtain ⟨y, hy⟩ := hsent sb hsb
    rw [hida, hidb, hx, hy] at hkey
    obtain rfl : x = y := JsKey.str.inj hkey
    rcases hab x (hida.trans hx) (hidb.trans hy) with hme | hme
    · exact hother (JsValue.str.inj (hme.symm.trans hpa))
    · exact hother (JsValue.str.inj (hme.symm.trans hpb))
  have hsubset : (((listings tab.messages p text).filter
      (keepsId (sends c.composed pk text))).map fun e => e.id.key 0) ⊆
      (sends c.composed pk text).map fun sent => sent.message.id.key 0 := by
    intro key hkey
    obtain ⟨e, he, rfl⟩ := List.mem_map.mp hkey
    obtain ⟨-, sent, hmem, hid⟩ := hentry e he
    exact List.mem_map.mpr ⟨sent, hmem, by rw [hid]⟩
  simpa using (List.subperm_of_subset hnodup hsubset).length_le

/--
Counting with the relay as written.  In the list of another peer, the entries of
the party with key `pk` and a text that keep an id under which it sent the text
are at most as many as its sends; and if there is any entry of the party with the
text, it sent a text with these bytes.
-/
theorem listings_le_sends (pk : PublicKey) {w : World H}
    (hw : (World.system H).Reach (World.Unforged pk) w)
    {t : TabId} {tab : Tab H} (htab : w.clients.tabs t = some tab)
    (hother : tab.peerId ≠ pubKeyText H pk) (text : JsString) :
    ((listings tab.messages (pubKeyText H pk) text).filter
        (keepsId (sends w.clients.composed pk text))).length ≤
      (sends w.clients.composed pk text).length ∧
    (listings tab.messages (pubKeyText H pk) text ≠ [] →
      ∃ sent ∈ w.clients.composed, sent.key = pk ∧
        encodeUtf8 sent.text = encodeUtf8 text) := by
  have hc : (Clients.system H).Reach (fun c a => c.Unforged pk a) w.clients :=
    World.reach_clients (fun _ _ b _ hok hb => hok b hb) hw
  refine ⟨kept_listings_le hc htab hother pk text, ?_⟩
  intro hne
  obtain ⟨e, he⟩ := List.exists_mem_of_ne_nil _ hne
  simp only [listings, List.mem_filter, Bool.and_eq_true,
    JsValue.strictEq_str_iff] at he
  obtain ⟨hmem, hpeer, htext⟩ := he
  obtain ⟨text', htext', hsent⟩ := (Clients.authentic_of_reach hc).listed t tab
    htab e hmem (pubKeyText H pk) hpeer (spells_pubKeyText pk)
  obtain rfl : text = text' := JsValue.str.inj (htext.symm.trans htext')
  exact hsent

theorem listings_le_sends_replayed :
    ∃ w : World plainHost,
      (World.system plainHost).Reach (World.Unforged (plainKey 1)) w ∧
      ∃ tab, w.clients.tabs 1 = some tab ∧
        (listings tab.messages (pubKeyText plainHost (plainKey 1)) (js "hi")).length = 2 ∧
        ((listings tab.messages (pubKeyText plainHost (plainKey 1)) (js "hi")).filter
          (keepsId (sends w.clients.composed (plainKey 1) (js "hi")))).length ≤
          (sends w.clients.composed (plainKey 1) (js "hi")).length := by
  obtain ⟨w, hw, hcheck⟩ := System.exists_reach_of_exec
    (World.system plainHost) (World.Unforged (plainKey 1))
    (World.genuine) (replaySchedule)
    (fun w => (w.clients.tabs 1).any fun tab =>
      tab.peerId = plainPeer 2 &&
        (listings tab.messages (pubKeyText plainHost (plainKey 1)) (js "hi")).length = 2)
    (fun _ _ h => World.unforged_of_genuine h _) (by decide +kernel)
  simp only [Option.any_eq_true, Bool.and_eq_true, decide_eq_true_eq] at hcheck
  obtain ⟨tab, htab, hme, htwo⟩ := hcheck
  have hother : tab.peerId ≠ pubKeyText plainHost (plainKey 1) := by
    rw [hme]
    decide +kernel
  exact ⟨w, hw, tab, htab, htwo,
    (listings_le_sends (plainKey 1) hw htab hother (js "hi")).1⟩

theorem replay_not_prevented :
    ¬ ∀ (H : Host), H.ed25519.Correct → ∀ w : World H,
      (World.system H).Reach (fun w a => ∀ pk, w.Unforged pk a) w →
      ∀ pk t tab text, w.clients.tabs t = some tab →
        tab.peerId ≠ pubKeyText H pk →
        (listings tab.messages (pubKeyText H pk) text).length ≤
          (sends w.clients.composed pk text).length := by
  intro hall
  obtain ⟨w, hw, hcheck⟩ := System.exists_reach_of_exec
    (World.system plainHost) (fun w a => ∀ pk, w.Unforged pk a)
    (World.genuine) (replaySchedule)
    (fun w =>
      (sends w.clients.composed (plainKey 1) (js "hi")).length = 1 &&
      (w.clients.tabs 1).any fun tab => tab.peerId = plainPeer 2 &&
        (listings tab.messages (pubKeyText plainHost (plainKey 1)) (js "hi")).length = 2)
    (fun _ _ h => World.unforged_of_genuine h) (by decide +kernel)
  simp only [Option.any_eq_true, Bool.and_eq_true, decide_eq_true_eq] at hcheck
  obtain ⟨hone, tab, htab, hme, htwo⟩ := hcheck
  have hother : tab.peerId ≠ pubKeyText plainHost (plainKey 1) := by
    rw [hme]
    decide +kernel
  have hle := hall plainHost plainEd25519_correct w hw (plainKey 1) 1 tab (js "hi")
    htab hother
  omega

end CommonChat.Network
