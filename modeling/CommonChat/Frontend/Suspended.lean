import CommonChat.Frontend.Copies

/-!
# Handlers that wait for a signature check

The `message` handler of the page awaits the signature check.  Until the check is
done the handler is suspended, with the peer id that its socket effect captured;
meanwhile the page sends, renames, opens another socket or takes other events, and
suspended handlers may be resumed in any order.  Each of them then does what a
handler that runs at once would do at that time, so the pages reach no state that
they would not reach with such handlers.
-/

namespace CommonChat.Frontend

open CommonChat.Foundation
open CommonChat.Core
open CommonChat.Relay

variable {H : Host}

/-! ## The two parts of the handler -/

namespace Tab

def isComplete (chatMsg : ChatMessage) : Bool :=
  chatMsg.text.truthy && chatMsg.signatureHex.truthy && chatMsg.peerId.truthy

/-- The handler from the result of the check on; `myId` is what it captured. -/
def afterAwait (tab : Tab H) (myId : JsString) (chatMsg : ChatMessage) : Tab H :=
  let valid := verifySignature H chatMsg.peerId chatMsg.text chatMsg.signatureHex
  let recipient := addressee chatMsg
  let msgType := effectiveType chatMsg
  let isForMe := recipient.strictEq (.str broadcastId) || recipient.strictEq (.str myId)
  let isFromMe := chatMsg.peerId.strictEq (.str myId)
  if !valid then tab
  else if msgType.strictEq (.str privateType) && !recipient.strictEq (.str myId) then tab
  else if !isForMe then tab
  else
    let listed :=
      if tab.messages.any fun m => m.id.strictEq chatMsg.id then tab.messages
      else tab.messages ++ [{ chatMsg with fromMe := .bool isFromMe, type := msgType }]
    let unread :=
      if !isFromMe && recipient.strictEq (.str myId) then
        if tab.activeView = .direct && tab.activeDirectPeerId.strictEq chatMsg.peerId then
          tab.unreadPeers
        else if tab.unreadPeers.any fun p => p.strictEq chatMsg.peerId then tab.unreadPeers
        else tab.unreadPeers ++ [chatMsg.peerId]
      else tab.unreadPeers
    { tab with messages := listed, unreadPeers := unread }

theorem afterAwait_eq (tab : Tab H) {chatMsg : ChatMessage}
    (h : isComplete chatMsg = true) :
    tab.afterAwait tab.peerId chatMsg = tab.onMessage chatMsg := by
  simp only [isComplete, Bool.and_eq_true] at h
  have hincoming : incoming H tab.peerId chatMsg =
      if !chatMsg.text.truthy || !chatMsg.signatureHex.truthy || !chatMsg.peerId.truthy then
        none
      else if !verifySignature H chatMsg.peerId chatMsg.text chatMsg.signatureHex then none
      else if (effectiveType chatMsg).strictEq (.str privateType) &&
          !(addressee chatMsg).strictEq (.str tab.peerId) then none
      else if !((addressee chatMsg).strictEq (.str broadcastId) ||
          (addressee chatMsg).strictEq (.str tab.peerId)) then none
      else
        some { chatMsg with
          fromMe := .bool (chatMsg.peerId.strictEq (.str tab.peerId))
          type := effectiveType chatMsg } := rfl
  rw [if_neg (by simp [h.1.1, h.1.2, h.2])] at hincoming
  unfold afterAwait onMessage
  simp only [hincoming]
  split
  · rfl
  split
  · rfl
  split
  · rfl
  rw [Bool.and_comm (!chatMsg.peerId.strictEq (.str tab.peerId))]
  rfl

end Tab

/-! ## Pages with suspended handlers -/

structure Handler where
  myId : JsString
  chatMsg : JsValue

structure Pages (H : Host) where
  clients : Clients H
  captured : TabId → Option JsString
  suspended : TabId → List Handler
  started : TabId → List Handler
  finished : TabId → List Handler

inductive PagesAction where
  | page (action : ClientAction)
  | socketEffect (tab : TabId)
  | arrive (tab : TabId) (chatMsg : JsValue)
  | resume (tab : TabId) (index : Nat)

def ClientAction.isMessage : ClientAction → Bool
  | .receive _ (.message _) => true
  | _ => false

namespace Pages

def initial (H : Host) : Pages H where
  clients := .initial H
  captured := fun _ => none
  suspended := fun _ => []
  started := fun _ => []
  finished := fun _ => []

def step (s : Pages H) : PagesAction → Option (Pages H)
  | .page a =>
      if a.isMessage then none
      else (s.clients.step a).map fun clients => { s with clients := clients }
  | .socketEffect t => do
      let tab ← s.clients.tabs t
      if tab.wantsSocket then
        some { s with captured := Function.update s.captured t (some tab.peerId) }
      else none
  | .arrive t chatMsg => do
      let myId ← s.captured t
      if Tab.isComplete (.ofJs chatMsg) then
        some { s with
          suspended := Function.update s.suspended t (s.suspended t ++ [⟨myId, chatMsg⟩])
          started := Function.update s.started t (s.started t ++ [⟨myId, chatMsg⟩]) }
      else some s
  | .resume t i => do
      let h ← (s.suspended t)[i]?
      let tab ← s.clients.tabs t
      some { s with
        clients := s.clients.setTab t (tab.afterAwait h.myId (.ofJs h.chatMsg))
        suspended := Function.update s.suspended t ((s.suspended t).eraseIdx i)
        finished := Function.update s.finished t (s.finished t ++ [h]) }

def system (H : Host) : System (Pages H) PagesAction := ⟨initial H, step⟩

def HasId (c : Clients H) (t : TabId) (myId : JsString) : Prop :=
  ∃ tab, c.tabs t = some tab ∧ tab.wantsSocket = true ∧ tab.peerId = myId

theorem HasId.change {c c' : Clients H} {a : ClientAction} (hfresh : c.FreshTab)
    (hchange : Clients.Change c a c') {t : TabId} {myId : JsString}
    (h : HasId c t myId) : HasId c' t myId := by
  obtain ⟨tab, htab, hwants, hid⟩ := h
  obtain ⟨tab', htab', hsame, hwants'⟩ := Clients.tab_survives hfresh hchange htab hwants
  exact ⟨tab', htab', hwants', hsame.trans hid⟩

/-- No captured peer id is out of date. -/
structure UpToDate (P : JsValue → Prop) (s : Pages H) : Prop where
  captured : ∀ t myId, s.captured t = some myId → HasId s.clients t myId
  suspended : ∀ t, ∀ h ∈ s.suspended t, HasId s.clients t h.myId ∧
    Tab.isComplete (.ofJs h.chatMsg) = true ∧ P h.chatMsg

theorem UpToDate.clients {P : JsValue → Prop} {s : Pages H} (h : s.UpToDate P)
    (hfresh : s.clients.FreshTab) {a : ClientAction} {c' : Clients H}
    (hchange : Clients.Change s.clients a c') :
    ({ s with clients := c' } : Pages H).UpToDate P where
  captured t myId hmyId := (h.captured t myId hmyId).change hfresh hchange
  suspended t h' hh' := by
    obtain ⟨hid, hrest⟩ := h.suspended t h' hh'
    exact ⟨hid.change hfresh hchange, hrest⟩

theorem UpToDate.resume {P : JsValue → Prop} {s : Pages H} (h : s.UpToDate P) {t : TabId}
    {i : Nat} {handler : Handler} (hi : (s.suspended t)[i]? = some handler) :
    ∃ tab, s.clients.tabs t = some tab ∧ tab.peerId = handler.myId ∧
      s.step (.resume t i) = some { s with
        clients := s.clients.setTab t (tab.onRelayEvent (.message handler.chatMsg))
        suspended := Function.update s.suspended t ((s.suspended t).eraseIdx i)
        finished := Function.update s.finished t (s.finished t ++ [handler]) } ∧
      s.clients.step (.receive t (.message handler.chatMsg)) =
        some (s.clients.setTab t (tab.onRelayEvent (.message handler.chatMsg))) := by
  obtain ⟨⟨tab, htab, hwants, hid⟩, hcomplete, -⟩ :=
    h.suspended t handler (List.mem_of_getElem? hi)
  refine ⟨tab, htab, hid, ?_, ?_⟩
  · simp only [step, hi, htab, Option.bind_eq_bind, Option.bind_some, ← hid,
      Tab.afterAwait_eq tab hcomplete, Tab.onRelayEvent]
  · simp only [Clients.step, Clients.receive, htab, hwants, Option.bind_eq_bind,
      Option.bind_some, if_true]

def Arriving (P : JsValue → Prop) (_ : Pages H) (a : PagesAction) : Prop :=
  ∀ t chatMsg, a = .arrive t chatMsg → P chatMsg

def Receiving (P : JsValue → Prop) (_ : Clients H) (a : ClientAction) : Prop :=
  ∀ t chatMsg, a = .receive t (.message chatMsg) → P chatMsg

def Accounted (s : Pages H) : Prop :=
  ∀ t, (s.finished t ++ s.suspended t).Perm (s.started t)

theorem Accounted.start {s : Pages H} (h : s.Accounted) (t : TabId) (handler : Handler) :
    ({ s with
      suspended := Function.update s.suspended t (s.suspended t ++ [handler])
      started := Function.update s.started t (s.started t ++ [handler]) } :
        Pages H).Accounted := by
  intro u
  by_cases hut : u = t
  · subst hut
    simp only [Function.update_self, ← List.append_assoc]
    exact (h u).append_right [handler]
  · simp only [Function.update_of_ne hut]
    exact h u

private theorem perm_cons_eraseIdx {α : Type*} {l : List α} {i : Nat} {a : α}
    (h : l[i]? = some a) : (a :: l.eraseIdx i).Perm l := by
  obtain ⟨hi, rfl⟩ := List.getElem?_eq_some_iff.mp h
  have hsplit : l = l.take i ++ l[i] :: l.drop (i + 1) := by
    rw [← List.drop_eq_getElem_cons hi, List.take_append_drop]
  rw [List.eraseIdx_eq_take_drop_succ]
  nth_rewrite 4 [hsplit]
  exact List.perm_middle.symm

theorem Accounted.finish {s : Pages H} (h : s.Accounted) {t : TabId} {i : Nat}
    {handler : Handler} (hi : (s.suspended t)[i]? = some handler) (clients : Clients H) :
    ({ s with
      clients := clients
      suspended := Function.update s.suspended t ((s.suspended t).eraseIdx i)
      finished := Function.update s.finished t (s.finished t ++ [handler]) } :
        Pages H).Accounted := by
  intro u
  by_cases hut : u = t
  · subst hut
    simp only [Function.update_self, List.append_assoc, List.singleton_append]
    exact ((perm_cons_eraseIdx hi).append_left _).trans (h u)
  · simp only [Function.update_of_ne hut]
    exact h u

structure Simulated (P : JsValue → Prop) (s : Pages H) : Prop where
  reach : (Clients.system H).Reach (Receiving P) s.clients
  upToDate : s.UpToDate P
  accounted : s.Accounted

theorem Simulated.page {P : JsValue → Prop} {s : Pages H} (h : s.Simulated P)
    {a : ClientAction} (hmessage : a.isMessage = false) {c' : Clients H}
    (hstep : s.clients.step a = some c') :
    ({ s with clients := c' } : Pages H).Simulated P where
  reach := by
    refine .step h.reach ?_ hstep
    rintro t chatMsg rfl
    cases hmessage
  upToDate := h.upToDate.clients (Clients.freshTab_of_reach h.reach)
    (Clients.change_of_step hstep)
  accounted := h.accounted

theorem Simulated.resume {P : JsValue → Prop} {s s' : Pages H} (h : s.Simulated P)
    {t : TabId} {i : Nat} (hstep : s.step (.resume t i) = some s') : s'.Simulated P := by
  have hsome : ∃ handler, (s.suspended t)[i]? = some handler := by
    simp only [step, Option.bind_eq_bind, Option.bind_eq_some_iff] at hstep
    obtain ⟨handler, hi, -⟩ := hstep
    exact ⟨handler, hi⟩
  obtain ⟨handler, hi⟩ := hsome
  obtain ⟨tab, htab, -, hresume, hatonce⟩ := h.upToDate.resume hi
  rw [hresume] at hstep
  obtain rfl := Option.some.inj hstep
  have hchange := Clients.change_of_step hatonce
  have hkept := h.upToDate.clients (Clients.freshTab_of_reach h.reach) hchange
  have hok : Receiving P s.clients (.receive t (.message handler.chatMsg)) := by
    intro u chatMsg heq
    cases heq
    exact (h.upToDate.suspended t handler (List.mem_of_getElem? hi)).2.2
  refine ⟨System.Reach.step h.reach hok hatonce, ⟨hkept.captured, ?_⟩,
    h.accounted.finish hi _⟩
  intro u h' hh'
  refine hkept.suspended u h' ?_
  simp only [Function.update_apply] at hh'
  split at hh'
  · rename_i hut
    rw [hut]
    exact List.mem_of_mem_eraseIdx hh'
  · exact hh'

theorem simulated_initial (P : JsValue → Prop) : (initial H).Simulated P where
  reach := .initial
  upToDate := by
    refine ⟨?_, ?_⟩
    · intro t myId hmyId
      cases hmyId
    · intro t h hh
      cases hh
  accounted _ := .nil

theorem simulated_of_reach {P : JsValue → Prop} {s : Pages H}
    (hs : (system H).Reach (Arriving P) s) : s.Simulated P := by
  refine hs.invariant (I := Simulated P) (simulated_initial P) ?_
  intro s a s' _ h hok hnext
  cases a with
  | page a =>
      simp only [system, step] at hnext
      split at hnext
      · cases hnext
      · rename_i hmessage
        obtain ⟨c', hc', rfl⟩ := Option.map_eq_some_iff.mp hnext
        exact h.page (by simpa using hmessage) hc'
  | socketEffect t =>
      simp only [system, step, Option.bind_eq_bind, Option.bind_eq_some_iff] at hnext
      obtain ⟨tab, htab, hnext⟩ := hnext
      split at hnext
      · rename_i hwants
        cases hnext
        refine ⟨h.reach, ⟨?_, h.upToDate.suspended⟩, h.accounted⟩
        intro u myId hmyId
        simp only [Function.update_apply] at hmyId
        split at hmyId
        · rename_i hut
          cases hmyId
          exact ⟨tab, by rw [hut]; exact htab, hwants, rfl⟩
        · exact h.upToDate.captured u myId hmyId
      · cases hnext
  | arrive t chatMsg =>
      simp only [system, step, Option.bind_eq_bind, Option.bind_eq_some_iff] at hnext
      obtain ⟨myId, hmyId, hnext⟩ := hnext
      split at hnext
      · rename_i hcomplete
        cases hnext
        refine ⟨h.reach, ⟨h.upToDate.captured, ?_⟩, h.accounted.start t _⟩
        intro u h' hh'
        simp only [Function.update_apply] at hh'
        split at hh'
        · rename_i hut
          subst hut
          rcases List.mem_append.mp hh' with hold | hnew
          · exact h.upToDate.suspended u h' hold
          · rw [List.mem_singleton.mp hnew]
            exact ⟨h.upToDate.captured u myId hmyId, hcomplete, hok u chatMsg rfl⟩
        · exact h.upToDate.suspended u h' hh'
      · cases hnext
        exact h
  | resume t i => exact h.resume hnext

theorem messages_onMessage_of_none {tab : Tab H} {m : ChatMessage}
    (h : Tab.incoming H tab.peerId m = none) : (tab.onMessage m).messages = tab.messages := by
  simp only [Tab.onMessage, h]

theorem messages_onMessage_of_some {tab : Tab H} {m e : ChatMessage}
    (h : Tab.incoming H tab.peerId m = some e) :
    (tab.onMessage m).messages =
      if tab.messages.any fun x => x.id.strictEq e.id then tab.messages
      else tab.messages ++ [e] := by
  simp only [Tab.onMessage, h, Tab.appendNew]

/--
Waiting makes no difference.  Whatever the pages do while handlers wait, and in
whatever order these are resumed, the pages are in a state that handlers that run at
once lead to, on payloads of the same kind, and each handler waits or has run once.
Every handler that waits can be resumed next, under the peer id that its tab still
has; it lists its payload exactly if the checks pass and the id is not listed yet.
-/
theorem waiting_is_harmless {P : JsValue → Prop} {s : Pages H}
    (hs : (system H).Reach (Arriving P) s) :
    (Clients.system H).Reach (Receiving P) s.clients ∧
      (∀ t, (s.finished t ++ s.suspended t).Perm (s.started t)) ∧
      ∀ t i handler, (s.suspended t)[i]? = some handler →
        ∃ tab s' tab', s.clients.tabs t = some tab ∧ tab.peerId = handler.myId ∧
          s.step (.resume t i) = some s' ∧
          s'.suspended t = (s.suspended t).eraseIdx i ∧
          s'.finished t = s.finished t ++ [handler] ∧
          s.clients.step (.receive t (.message handler.chatMsg)) = some s'.clients ∧
          s'.clients.tabs t = some tab' ∧
          (Tab.incoming H handler.myId (.ofJs handler.chatMsg) = none →
            tab'.messages = tab.messages) ∧
          ∀ e, Tab.incoming H handler.myId (.ofJs handler.chatMsg) = some e →
            tab'.messages =
              if tab.messages.any fun m => m.id.strictEq e.id then tab.messages
              else tab.messages ++ [e] := by
  have h := simulated_of_reach hs
  refine ⟨h.reach, h.accounted, ?_⟩
  intro t i handler hi
  obtain ⟨tab, htab, hid, hresume, hatonce⟩ := h.upToDate.resume hi
  refine ⟨tab, _, _, htab, hid, hresume, Function.update_self .., Function.update_self ..,
    hatonce, Clients.setTab_self _ _ _, ?_⟩
  rw [← hid]
  exact ⟨messages_onMessage_of_none, fun _ => messages_onMessage_of_some⟩

theorem waiting_is_harmless_reordered :
    ∃ s : Pages plainHost, (system plainHost).Reach (Arriving fun _ => True) s ∧
      (Clients.system plainHost).Reach (Receiving fun _ => True) s.clients ∧
      (s.finished 0).length = 2 ∧ (s.finished 0 ++ s.suspended 0).Perm (s.started 0) ∧
      ∃ tab s' tab', s.clients.tabs 0 = some tab ∧ tab.messages.length = 3 ∧
        s.step (.resume 0 0) = some s' ∧ s'.suspended 0 = [] ∧
        s'.clients.tabs 0 = some tab' ∧ tab'.messages = tab.messages := by
  obtain ⟨s, hs, hcheck⟩ := System.exists_reach_of_exec (system plainHost)
    (Arriving fun _ => True) (fun _ _ => true)
    [.page (.load 0), .page (.handleInitialize 0 (js "P") (plainKey 1)), .socketEffect 0,
      .arrive 0 (plainMessage 2 (js "m1") (js "hi")).toJs,
      .arrive 0 (plainMessage 2 (js "m2") (js "there")).toJs,
      .arrive 0 (plainMessage 2 (js "m1") (js "again")).toJs,
      .page (.saveDisplayName 0 (js "Q")), .socketEffect 0,
      .page (.signAndSend 0 (js "yes") 7 (js "x")), .resume 0 1, .resume 0 0]
    (fun s => (s.finished 0).length = 2 && (s.suspended 0).length = 1 &&
      (s.clients.tabs 0).any fun tab => tab.messages.length = 3 &&
        (s.suspended 0).all fun h =>
          (Tab.incoming plainHost h.myId (.ofJs h.chatMsg)).any fun e =>
            tab.messages.any fun m => m.id.strictEq e.id)
    (fun _ _ _ _ _ _ => trivial) (by decide +kernel)
  simp only [Bool.and_eq_true, decide_eq_true_eq, Option.any_eq_true] at hcheck
  obtain ⟨⟨htwo, hone⟩, tab, htab, hthree, hknown⟩ := hcheck
  obtain ⟨handler, hhandler⟩ := List.length_eq_one_iff.mp hone
  simp only [hhandler, List.all_cons, List.all_nil, Bool.and_true, Option.any_eq_true]
    at hknown
  obtain ⟨e, he, hlisted⟩ := hknown
  obtain ⟨hreach, haccounted, hall⟩ := waiting_is_harmless hs
  obtain ⟨tab₁, s', tab', htab₁, -, hresume, hrest, -, -, htab', -, hlist⟩ :=
    hall 0 0 handler (by simp [hhandler])
  obtain rfl : tab = tab₁ := Option.some.inj (htab.symm.trans htab₁)
  refine ⟨s, hs, hreach, htwo, haccounted 0, tab, s', tab', htab, hthree, hresume, ?_,
    htab', ?_⟩
  · rw [hrest, hhandler]
    rfl
  · rw [hlist e he, if_pos hlisted]

end Pages

end CommonChat.Frontend
