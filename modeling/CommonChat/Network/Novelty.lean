import CommonChat.Network.Delivery

/-!
# Nothing comes twice

A message of another peer that is on its way to a tab is not listed there yet: not
since the page was loaded, over whatever connections, and not among the entries
that the page found in storage, where the other tabs of the browser leave what
they have received.  The relay handles a message once, and an entry is stored
only after that, so it is never queued to a connection that is opened later.
-/

namespace CommonChat.Network

open CommonChat.Foundation
open CommonChat.Core
open CommonChat.Relay
open CommonChat.Frontend

namespace World

variable {H : Host}

/-! ## Whose messages a connection carries -/

def WrittenBy (w : World H) (peerId : JsString) (m : ChatMessage) : Prop :=
  m.peerId = .str peerId ∧ ∃ sent ∈ w.clients.composed, m = sent.message

theorem WrittenBy.mono {w w' : World H} {peerId : JsString} {m : ChatMessage}
    (h : w.WrittenBy peerId m)
    (hsub : w.clients.composed ⊆ w'.clients.composed) : w'.WrittenBy peerId m := by
  obtain ⟨hpeer, sent, hsent, heq⟩ := h
  exact ⟨hpeer, sent, hsub hsent, heq⟩

structure Authored (w : World H) : Prop where
  buffered : ∀ t, ∀ m ∈ w.sendBuffer t, ∃ tab, w.clients.tabs t = some tab ∧
    tab.wantsSocket = true ∧ w.WrittenBy tab.peerId m
  sent : ∀ s conn, w.owner s = some conn → ∀ m ∈ w.sentOn s,
    w.WrittenBy conn.peerId m

theorem authored_initial : (initial H).Authored where
  buffered := by
    intro t m hm
    cases hm
  sent := by
    intro s conn hconn
    cases hconn

theorem Authored.clients {w : World H} (h : w.Authored)
    (hfresh : w.clients.FreshTab) {b : ClientAction} {clients : Clients H}
    (hstep : w.clients.step b = some clients) :
    ({ w with clients := clients } : World H).Authored := by
  have hchange := Clients.change_of_step hstep
  have hsub := Clients.composed_subset hchange
  refine ⟨?_, fun s conn hconn m hm => (h.sent s conn hconn m hm).mono hsub⟩
  intro t m hm
  obtain ⟨tab, htab, hwants, hby⟩ := h.buffered t m hm
  obtain ⟨tab', htab', hsame, hwants'⟩ := Clients.tab_survives hfresh hchange htab hwants
  refine ⟨tab', htab', hwants', ?_⟩
  rw [hsame]
  exact hby.mono hsub

theorem Authored.transmit {w : World H} (h : w.Authored) {t : TabId} {tab : Tab H}
    (htab : w.clients.tabs t = some tab)
    (hcurrent : ∀ s conn, w.current t = some s → w.owner s = some conn →
      conn.peerId = tab.peerId)
    {msg : ChatMessage} (hby : w.WrittenBy tab.peerId msg) :
    (w.transmit t msg).Authored := by
  unfold World.transmit
  split
  · rename_i s hs
    refine ⟨h.buffered, ?_⟩
    intro s' conn hconn m hm
    simp only [Function.update_apply] at hm
    split at hm
    · rename_i hs'
      subst hs'
      rcases List.mem_append.mp hm with hold | hlast
      · exact h.sent s' conn hconn m hold
      · rw [List.mem_singleton.mp hlast, hcurrent s' conn hs hconn]
        exact hby
    · exact h.sent s' conn hconn m hm
  · split
    · rename_i hwants
      refine ⟨?_, h.sent⟩
      intro u m hm
      simp only [Function.update_apply] at hm
      split at hm
      · rename_i hu
        subst hu
        rcases List.mem_append.mp hm with hold | hlast
        · exact h.buffered u m hold
        · rw [List.mem_singleton.mp hlast]
          simp only [htab, Option.any_some] at hwants
          exact ⟨tab, htab, hwants, hby⟩
      · exact h.buffered u m hm
    · exact h

theorem Authored.change {w w' : World H} {a : Action} (h : w.Authored)
    (hwired : w.Wired) (hfresh : w.clients.FreshTab)
    (hchange : Change w a w') : w'.Authored := by
  cases hchange with
  | page hpage hclients => exact h.clients hfresh hclients
  | @send t input now random clients msg hsend =>
      have hstep : w.clients.step (.signAndSend t input now random) = some clients := by
        simp only [Clients.step, hsend, Option.map_some]
      have hafter := h.clients hfresh hstep
      obtain ⟨tab, identity, htab, -, hmsg, rfl⟩ := Clients.signAndSend_cases hsend
      refine hafter.transmit (Clients.setTab_self _ _ _) ?_ ?_
      · intro s conn hs hconn
        obtain ⟨conn', tab', hconn', -, htab', hsame, -⟩ := hwired.current_tab hs
        cases hconn'.symm.trans hconn
        cases htab'.symm.trans htab
        exact hsame.symm
      · refine ⟨?_, .ofTab t tab identity input msg, ?_, rfl⟩
        · obtain ⟨-, -, _, -, rfl⟩ := Tab.composeMessage_eq_some hmsg
          rfl
        · exact List.mem_append_right _ (List.mem_singleton_self _)
  | @keepName t name clients hclients =>
      exact h.clients (b := .saveDisplayName t name) hfresh hclients
  | @newName t name clients hclients =>
      have hafter := h.clients (b := .saveDisplayName t name) hfresh hclients
      refine ⟨?_, hafter.sent⟩
      intro u m hm
      simp only [close, Function.update_apply] at hm
      split at hm
      · cases hm
      · exact hafter.buffered u m hm
  | @connect t tab htab hwants hcurrent =>
      refine ⟨?_, ?_⟩
      · intro u m hm
        simp only [openConnection, Function.update_apply] at hm
        split at hm
        · cases hm
        · exact h.buffered u m hm
      · intro s conn hconn m hm
        simp only [openConnection, Function.update_apply] at hconn hm
        split at hm
        · rename_i hs
          rw [if_pos hs] at hconn
          cases hconn
          obtain ⟨tab', htab', -, hby⟩ := h.buffered t m hm
          rw [htab] at htab'
          cases htab'
          exact hby
        · rename_i hs
          rw [if_neg hs] at hconn
          exact h.sent s conn hconn m hm
  | @deliver t s event rest tab hcurrent hdown htab hwants =>
      have hstep : w.clients.step (.receive t event) =
          some (w.clients.setTab t (tab.onRelayEvent event)) := by
        simp [Clients.step, Clients.receive, htab, hwants]
      have hafter := h.clients hfresh hstep
      exact ⟨hafter.buffered, hafter.sent⟩
  | _ => exact ⟨h.buffered, h.sent⟩

theorem authored_of_reach {ok : World H → Action → Prop} {w : World H}
    (hw : (system H).Reach ok w) : w.Authored := by
  refine hw.invariant (I := Authored) authored_initial ?_
  intro w a w' hreach h _ hnext
  exact h.change (wired_of_reach hreach)
    (Clients.freshTab_of_reach (reach_clients_any hreach)) (change_of_step hnext)

/-! ## What is listed has been handled -/

structure Novel (w : World H) : Prop where
  lists : Clients.AllEntries (fun me e => e.throughJson = e ∧
    (e.peerId ≠ .str me → w.toBroker.Handled e.idKey)) w.clients
  loaded : ∀ t s tab, w.current t = some s → w.clients.tabs t = some tab →
    ∀ e ∈ tab.messages.take tab.loaded, e.peerId ≠ .str tab.peerId →
      e.idKey ∉ w.toBroker.queued s

theorem handled_of_step {w w' : World H} {a : Action}
    (hw : (system H).Reach ShippedFresh w) (hok : w.ShippedFresh a)
    (hnext : w.step a = some w') {id : JsKey} (h : w.toBroker.Handled id) :
    w'.toBroker.Handled id ∧
      ∀ s, id ∈ w'.toBroker.queued s → id ∈ w.toBroker.queued s := by
  rcases matched_of_step hw hok hnext with hsame | ⟨b, hsound, hstep⟩
  · rw [hsame]
    exact ⟨h, fun _ hq => hq⟩
  · exact h.step (Broker.orderly_of_reach (reach_broker hw)) hsound hstep

theorem handled_of_down {w : World H} (hw : (system H).Reach ShippedFresh w)
    {s : SocketId} {payload : JsValue} (hdown : .message payload ∈ w.down s)
    {me : JsString} {e : ChatMessage}
    (hin : Tab.incoming H me (.ofJs payload) = some e) :
    e.throughJson = e ∧ w.toBroker.Handled e.idKey := by
  have hcarried := carried_of_reach shipped_of_shippedFresh hw
  have hqueued := (hcarried.down_suffix s).subset hdown
  obtain ⟨sent, hsent, rfl, -⟩ := hcarried.queued s payload hqueued
  have hm := wellSent_of_reach shipped_of_shippedFresh hw sent hsent
  rw [hm.ofJs_eq] at hin
  obtain ⟨hcopy, -⟩ := copyOf_incoming hm hin
  refine ⟨hm.copy_throughJson hcopy, ?_⟩
  refine (Broker.orderly_of_reach (reach_broker hw)).handled s _ ?_
  refine List.mem_filterMap.mpr ⟨_, hqueued, ?_⟩
  rw [eventId, hm.ofJs_eq, hcopy.idKey_eq]

theorem Novel.lists_step {w w' : World H} {a : Action} (h : w.Novel)
    (hw : (system H).Reach ShippedFresh w) (hok : w.ShippedFresh a)
    (hnext : w.step a = some w') :
    Clients.AllEntries (fun me e => e.throughJson = e ∧
      (e.peerId ≠ .str me → w'.toBroker.Handled e.idKey)) w'.clients := by
  have hmono : ∀ id, w.toBroker.Handled id → w'.toBroker.Handled id :=
    fun id hid => (handled_of_step hw hok hnext hid).1
  have hwell' := wellSent_of_reach shipped_of_shippedFresh (.step hw hok hnext)
  rcases clients_of_change (change_of_step hnext) with hsame | ⟨b, hb, hstep⟩
  · rw [hsame]
    refine h.lists.mono ?_
    intro me list hlist e he
    exact ⟨(hlist e he).1, fun hother => hmono _ ((hlist e he).2 hother)⟩
  · refine h.lists.change (Clients.allInStep_of_reach (reach_clients_any hw))
      (Clients.change_of_step hstep) ?_ ?_ ?_ ?_
    · exact fun me e he => ⟨he.1, fun hother => hmono _ (he.2 hother)⟩
    · intro me e he
      rw [he.1]
      exact he
    · rintro t input now random msg tab rfl hsend htab
      obtain ⟨tab', identity, htab', -, hmsg, hclients⟩ := Clients.signAndSend_cases hsend
      cases htab.symm.trans htab'
      refine ⟨?_, ?_⟩
      · refine (hwell' (.ofTab t tab identity input msg) ?_).throughJson_eq
        rw [hclients]
        exact List.mem_append_right _ (List.mem_singleton_self _)
      · obtain ⟨-, -, _, -, rfl⟩ := Tab.composeMessage_eq_some hmsg
        exact fun hother => absurd rfl hother
    · rintro t tab payload e rfl - hin
      obtain ⟨s, -, hdown⟩ := receive_of_clientAction hb
      obtain ⟨hjson, hhandled⟩ := handled_of_down hw hdown hin
      exact ⟨hjson, fun _ => hmono _ hhandled⟩

theorem current_of_change {w w' : World H} {a : Action} (hwired : w.Wired)
    (hchange : Change w a w') {t : TabId} {s : SocketId}
    (hcur : w'.current t = some s) : w.current t = some s ∨ w'.queued s = [] := by
  cases hchange with
  | @send u input now random clients msg hsend =>
      obtain ⟨up, sentOn, sendBuffer, heq, -⟩ :=
        transmit_frame { w with clients := clients } u msg
      rw [heq] at hcur
      exact .inl hcur
  | newName hclients =>
      simp only [close, Function.update_apply] at hcur
      split at hcur
      · cases hcur
      · exact .inl hcur
  | connect htab hwants hcurrent =>
      simp only [openConnection, Function.update_apply] at hcur
      split at hcur
      · cases hcur
        exact .inr (hwired.unused _ (Nat.le_refl _)).2.2.2
      · exact .inl hcur
  | leave u =>
      simp only [Function.update_apply] at hcur
      split at hcur
      · cases hcur
      · exact .inl hcur
  | _ => exact .inl hcur

theorem Novel.loaded_step {w w' : World H} {a : Action} (h : w.Novel)
    (hw : (system H).Reach ShippedFresh w) (hok : w.ShippedFresh a)
    (hnext : w.step a = some w') :
    ∀ t s tab, w'.current t = some s → w'.clients.tabs t = some tab →
      ∀ e ∈ tab.messages.take tab.loaded, e.peerId ≠ .str tab.peerId →
        e.idKey ∉ w'.toBroker.queued s := by
  have hwired := wired_of_reach hw
  have hchange := change_of_step hnext
  have hkept : ∀ t s tab', w.current t = some s → w'.clients.tabs t = some tab' →
      ∀ e ∈ tab'.messages.take tab'.loaded, e.peerId ≠ .str tab'.peerId →
        e.idKey ∉ w'.toBroker.queued s := by
    intro t s tab' hcur htab' e he hother hqueued
    obtain ⟨conn, tab, -, -, htab, -, hwants⟩ := hwired.current_tab hcur
    have hsame : tab'.messages.take tab'.loaded = tab.messages.take tab.loaded ∧
        tab'.peerId = tab.peerId := by
      rcases clients_of_change hchange with hsame | ⟨b, -, hstep⟩
      · rw [hsame, htab] at htab'
        cases htab'
        exact ⟨rfl, rfl⟩
      · have hclients := reach_clients_any hw
        have hstep := Clients.change_of_step hstep
        obtain ⟨tab₁, htab₁, hpeer, -⟩ := Clients.tab_survives
          (Clients.freshTab_of_reach hclients) hstep htab hwants
        cases htab'.symm.trans htab₁
        simp only [Tab.wantsSocket, Bool.and_eq_true] at hwants
        exact ⟨Clients.take_loaded_of_change hclients hstep htab hwants.1.1 htab', hpeer⟩
    rw [hsame.1] at he
    rw [hsame.2] at hother
    have hhandled := (h.lists.listed t tab htab e (List.mem_of_mem_take he)).2 hother
    exact h.loaded t s tab hcur htab e he hother
      ((handled_of_step hw hok hnext hhandled).2 s hqueued)
  intro t s tab hcur htab
  rcases current_of_change hwired hchange hcur with hold | hnone
  · exact hkept t s tab hold htab
  · intro e he hother hqueued
    simp [toBroker, hnone] at hqueued

theorem novel_of_reach {w : World H} (hw : (system H).Reach ShippedFresh w) :
    w.Novel := by
  refine hw.invariant (I := Novel) ⟨Clients.allEntries_initial _, ?_⟩ ?_
  · intro t s tab hcur
    cases hcur
  · intro w a w' hreach h hok hnext
    exact ⟨h.lists_step hreach hok hnext, h.loaded_step hreach hok hnext⟩

/--
What is on its way to a tab from another peer is not listed there, neither since
the page load nor from storage.
-/
theorem not_listed_of_down {w : World H} (hw : (system H).Reach ShippedFresh w)
    {t : TabId} {s : SocketId} {tab : Tab H} (hcurrent : w.current t = some s)
    (htab : w.clients.tabs t = some tab) {payload : JsValue}
    (hdown : .message payload ∈ w.down s)
    (hother : (ChatMessage.ofJs payload).peerId ≠ .str tab.peerId) :
    ∀ e ∈ tab.messages, e.idKey ≠ (ChatMessage.ofJs payload).idKey := by
  have hclosed := closed_of_reach hw
  have hcarried := carried_of_reach shipped_of_shippedFresh hw
  have ho := Broker.orderly_of_reach (reach_broker hw)
  have hqueued := (hcarried.down_suffix s).subset hdown
  obtain ⟨sent, hsent, rfl, -⟩ := hcarried.queued s payload hqueued
  have hm := wellSent_of_reach shipped_of_shippedFresh hw sent hsent
  have hid : eventId (.message sent.message.toJs.throughJson) =
      some sent.message.idKey := by
    rw [eventId, hm.ofJs_eq]
  rw [hm.ofJs_eq] at hother ⊢
  intro e he hkey
  rw [← List.take_append_drop tab.loaded tab.messages] at he
  rcases List.mem_append.mp he with hfound | hseen
  · obtain ⟨sent', hsent', hcopy, -⟩ := ((Clients.copies_of_reach hclosed).listed t tab
      htab).received e (List.mem_of_mem_take hfound)
    obtain rfl : sent' = sent :=
      Clients.eq_of_idKey hclosed hsent' hsent (hcopy.idKey_eq.symm.trans hkey)
    refine (novel_of_reach hw).loaded t s tab hcurrent htab e hfound ?_ ?_
    · obtain ⟨b, rfl⟩ := hcopy
      exact hother
    · rw [hkey]
      exact List.mem_filterMap.mpr ⟨_, hqueued, hid⟩
  · obtain ⟨d, hd, -⟩ := ho.handled s _ (List.mem_filterMap.mpr ⟨_, hqueued, hid⟩)
    cases howner : w.owner d with
    | none =>
        have hnone := (ho.unopened d (by simp [toBroker, howner])).1
        rw [hnone] at hd
        cases hd
    | some conn =>
        obtain ⟨m, hm', hmkey⟩ := List.mem_map.mp hd
        obtain ⟨hpeer, sent', hsent', rfl⟩ := (authored_of_reach hw).sent d conn howner m hm'
        obtain rfl := Clients.eq_of_idKey hclosed hsent' hsent hmkey
        refine ho.not_seen_of_inbox (m := conn.tab) (n := t) ?_ ?_ hd ?_ ?_
        · simp [toBroker, howner]
        · rintro rfl
          obtain ⟨tab', htab', hsame, -⟩ := (wired_of_reach hw).owner_tab d conn howner
          cases htab'.symm.trans htab
          exact hother (by rw [hpeer, hsame])
        · simp only [Broker.inbox, toBroker, hcurrent]
          exact List.mem_filterMap.mpr ⟨_, hdown, hid⟩
        · simp only [toBroker, Clients.seenIds, htab]
          exact List.mem_map.mpr ⟨e, hseen, hkey⟩

end World

end CommonChat.Network
