import CommonChat.Frontend.Display
import CommonChat.Network.Novelty
import CommonChat.Network.Rename

/-!
# What a page says about its messages

The windows of the tabs around the network.  The number in the title and the marks
in the sidebar are set outside the duplicate check of the list; among shipped
clients this makes no difference, because no message of another peer comes twice.

The runs here carry along how many entries each tab listed when its window, or the
direct view of a peer, was last in view.
-/

namespace CommonChat.Network

open CommonChat.Foundation
open CommonChat.Core
open CommonChat.Relay
open CommonChat.Frontend

variable {H : Host}

/--
The network with what the pages show.  The last three fields are history: how many
entries a tab listed when its window was last in view, how many when the direct
view of a peer was, and whether a rename ended its last connection.
-/
structure Observed (H : Host) where
  world : World H
  display : TabId → Display
  shown : TabId → Nat
  read : TabId → JsString → Nat
  renamed : TabId → Bool

inductive ObservedAction where
  | net (action : Action)
  | visibility (tab : TabId) (hidden : Bool)
  | notificationTimeout (tab : TabId)

namespace Observed

def initial (H : Host) : Observed H where
  world := .initial H
  display := fun _ => .initial
  shown := fun _ => 0
  read := fun _ _ => 0
  renamed := fun _ => false

def nextMessage (w : World H) (t : TabId) : Option (JsString × ChatMessage) := do
  let tab ← w.clients.tabs t
  let s ← w.current t
  let event ← (w.down s).head?
  match event with
  | .message payload => some (tab.peerId, .ofJs payload)
  | _ => none

def displayAfter (o : Observed H) : Action → TabId → Display
  | .connect t =>
      Function.update o.display t { o.display t with relayConnected := true }
  | .leave t =>
      if (o.world.current t).isSome then
        Function.update o.display t { o.display t with relayConnected := false }
      else o.display
  | .deliver t =>
      match nextMessage o.world t with
      | some (myId, chatMsg) =>
          Function.update o.display t ((o.display t).onMessage H myId chatMsg)
      | none => o.display
  -- The cleanup after a rename removes the listeners before it disconnects.
  | _ => o.display

def renamedAfter (o : Observed H) (w : World H) : Action → TabId → Bool
  | .connect t => Function.update o.renamed t false
  | .leave t =>
      if (o.world.current t).isSome then Function.update o.renamed t false else o.renamed
  | .rename t _ =>
      Function.update o.renamed t
        (o.renamed t || ((o.world.current t).isSome && (w.current t).isNone))
  | _ => o.renamed

def shownAfter (o : Observed H) (w : World H) (display : TabId → Display) (t : TabId) :
    Nat :=
  match w.clients.tabs t with
  | some tab => if (display t).hidden then o.shown t else tab.messages.length
  | none => o.shown t

def step (o : Observed H) : ObservedAction → Option (Observed H)
  | .net a => (o.world.step a).map fun w =>
      { world := w
        display := o.displayAfter a
        shown := o.shownAfter w (o.displayAfter a)
        read := (Watched.mk o.world.clients o.read).readAfter w.clients
        renamed := o.renamedAfter w a }
  | .visibility t hidden =>
      let display := Function.update o.display t ((o.display t).onVisibility hidden)
      some { o with display := display, shown := o.shownAfter o.world display }
  | .notificationTimeout t =>
      if (o.display t).p2pNotification then
        some { o with display :=
          Function.update o.display t { o.display t with p2pNotification := false } }
      else none

def system (H : Host) : System (Observed H) ObservedAction := ⟨initial H, step⟩

def ShippedFresh (o : Observed H) : ObservedAction → Prop
  | .net a => o.world.ShippedFresh a
  | _ => True

theorem reach_world {o : Observed H} (ho : (system H).Reach ShippedFresh o) :
    (World.system H).Reach World.ShippedFresh o.world := by
  refine ho.project Observed.world rfl ?_
  intro o a o' _ hok hnext
  cases a with
  | net a =>
      obtain ⟨w, hw, rfl⟩ := Option.map_eq_some_iff.mp hnext
      exact .inr ⟨a, hok, hw⟩
  | visibility t hidden =>
      cases hnext
      exact .inl rfl
  | notificationTimeout t =>
      simp only [system, step] at hnext
      split at hnext
      · cases hnext
        exact .inl rfl
      · cases hnext

end Observed

/-! ## Runs -/

theorem World.tab_of_change {w w' : World H} {a : Action}
    {ok : World H → Action → Prop} (hw : (World.system H).Reach ok w)
    (hchange : World.Change w a w') (hdeliver : ∀ t, a ≠ .deliver t) {t : TabId}
    {tab' : Tab H} (htab' : w'.clients.tabs t = some tab') :
    (∃ tab, w.clients.tabs t = some tab ∧ tab'.loaded = tab.loaded ∧
      (tab'.messages = tab.messages ∨ ∃ e, e.fromMe.truthy = true ∧
        tab'.messages = tab.messages ++ [e])) ∨
      (w.clients.Absent t ∧ tab'.messages.drop tab'.loaded = []) := by
  rcases World.clients_of_change hchange with hsame | ⟨b, hb, hstep⟩
  · rw [hsame] at htab'
    exact .inl ⟨tab', htab', rfl, .inl rfl⟩
  · have hclients := World.reach_clients_any hw
    have hreceive : ∀ u event, b ≠ .receive u event := by
      rintro u event rfl
      cases a with
      | deliver u => exact hdeliver u rfl
      | page a =>
          simp only [World.clientAction] at hb
          split at hb
          · rename_i hpage
            cases hb
            cases hpage
          · cases hb
      | _ => cases hb
    refine (Clients.tab_of_change (Clients.allInStep_of_reach hclients)
      (Clients.freshTab_of_reach hclients) (Clients.change_of_step hstep) hreceive
      htab').imp_left ?_
    rintro ⟨tab, htab, hsame, hmessages⟩
    refine ⟨tab, htab, hsame.loaded_eq, hmessages.imp_right ?_⟩
    rintro ⟨input, now, random, msg, -, hsend, happend⟩
    obtain ⟨tab₁, identity, -, -, hmsg, -⟩ := Clients.signAndSend_cases hsend
    refine ⟨msg, ?_, happend⟩
    obtain ⟨-, -, _, -, rfl⟩ := Tab.composeMessage_eq_some hmsg
    rfl

namespace Observed

structure Exact (o : Observed H) : Prop where
  counts : ∀ t tab, o.world.clients.tabs t = some tab →
    ExactCount tab (o.display t) (o.shown t)
  absent : ∀ t, o.world.clients.tabs t = none →
    (o.display t).tabUnreadCount = 0 ∧ (o.display t).title = Display.baseTitle ∧
      o.shown t = 0
  marks : (Watched.mk o.world.clients o.read).Exact
  connected : ∀ t, (o.display t).relayConnected =
    ((o.world.current t).isSome || o.renamed t)

theorem displayAfter_count (o : Observed H) {a : Action} (ha : ∀ t, a ≠ .deliver t)
    (t : TabId) : (o.displayAfter a t).hidden = (o.display t).hidden ∧
      (o.displayAfter a t).tabUnreadCount = (o.display t).tabUnreadCount ∧
      (o.displayAfter a t).title = (o.display t).title := by
  cases a with
  | deliver u => exact absurd rfl (ha u)
  | connect u =>
      simp only [displayAfter, Function.update_apply]
      split
      · rename_i hu
        subst hu
        exact ⟨rfl, rfl, rfl⟩
      · exact ⟨rfl, rfl, rfl⟩
  | leave u =>
      simp only [displayAfter]
      split
      · simp only [Function.update_apply]
        split
        · rename_i hu
          subst hu
          exact ⟨rfl, rfl, rfl⟩
        · exact ⟨rfl, rfl, rfl⟩
      · exact ⟨rfl, rfl, rfl⟩
  | _ => exact ⟨rfl, rfl, rfl⟩

theorem displayAfter_of_absent (o : Observed H) {t : TabId}
    (h : o.world.clients.tabs t = none) (a : Action) :
    (o.displayAfter a t).tabUnreadCount = (o.display t).tabUnreadCount ∧
      (o.displayAfter a t).title = (o.display t).title := by
  by_cases hdeliver : ∀ u, a ≠ .deliver u
  · exact (o.displayAfter_count hdeliver t).2
  · simp only [ne_eq, not_forall, not_not] at hdeliver
    obtain ⟨u, rfl⟩ := hdeliver
    simp only [displayAfter]
    cases hnext : nextMessage o.world u with
    | none => exact ⟨rfl, rfl⟩
    | some next =>
        have hne : t ≠ u := by
          rintro rfl
          simp [nextMessage, h] at hnext
        simp only [Function.update_of_ne hne]
        exact ⟨trivial, trivial⟩

theorem Exact.count_of_absent {o : Observed H} (h : o.Exact)
    {ok : World H → Action → Prop} (hw : (World.system H).Reach ok o.world) {t : TabId}
    (habsent : o.world.clients.Absent t) :
    (o.display t).tabUnreadCount = 0 ∧ (o.display t).title = Display.baseTitle ∧
      o.shown t = 0 := by
  cases htab : o.world.clients.tabs t with
  | none => exact h.absent t htab
  | some tab =>
      have hstep := Clients.allInStep_of_reach (World.reach_clients_any hw)
      have hnil := (hstep t tab htab).messages_eq_nil (habsent tab htab)
      have hexact := h.counts t tab htab
      have hcount : (o.display t).tabUnreadCount = 0 := by
        rw [hexact.count, unseen_of_drop (by rw [hnil, List.drop_nil])]
        rfl
      refine ⟨hcount, by rw [hexact.title, hcount]; rfl, ?_⟩
      have hle := hexact.since_le
      rw [hnil] at hle
      exact Nat.le_zero.mp hle

theorem Exact.counts_of_quiet {o : Observed H} (h : o.Exact)
    (hw : (World.system H).Reach World.ShippedFresh o.world) {a : Action} {w' : World H}
    (hchange : World.Change o.world a w') (hdeliver : ∀ t, a ≠ .deliver t) {t : TabId}
    {tab' : Tab H} (htab' : w'.clients.tabs t = some tab') :
    ExactCount tab' (o.displayAfter a t)
      (if (o.displayAfter a t).hidden then o.shown t else tab'.messages.length) := by
  obtain ⟨hhidden, hcount, htitle⟩ := o.displayAfter_count hdeliver t
  rcases World.tab_of_change hw hchange hdeliver htab' with
    ⟨tab, htab, hloaded, hmessages⟩ | ⟨habsent, hdrop⟩
  · have hexact := h.counts t tab htab
    rcases hmessages with hsame | ⟨e, hown, happend⟩
    · refine hexact.kept (Nat.le_of_eq (by rw [hsame])) ?_ hhidden hcount htitle
      rw [unseen, hsame, hloaded]
      rfl
    · exact hexact.append (Clients.loaded_le_of_reach (World.reach_clients_any hw) t tab
        htab) hloaded happend hown hhidden hcount htitle
  · obtain ⟨hzero, hbase, hshown⟩ := h.count_of_absent hw habsent
    refine exactCount_shown ?_ ?_ ?_ ?_
    · rw [hshown]
      exact Nat.zero_le _
    · intro _
      rw [hcount, hzero, hshown, unseen_of_drop (by rw [Nat.max_zero, hdrop])]
      rfl
    · intro _
      rw [hcount, hzero]
    · rw [htitle, hbase, hcount, hzero]
      rfl

/-- No message of another peer is listed when it is delivered. -/
theorem unlisted_of_down {w : World H}
    (hw : (World.system H).Reach World.ShippedFresh w) {t : TabId} {s : SocketId}
    {tab : Tab H} {payload : JsValue}
    (hcurrent : w.current t = some s) (hdown : .message payload ∈ w.down s)
    (htab : w.clients.tabs t = some tab)
    (hother : (ChatMessage.ofJs payload).peerId ≠ .str tab.peerId) :
    ∀ e ∈ tab.messages, e.id.strictEq (ChatMessage.ofJs payload).id = false := by
  intro e he
  have hne := World.not_listed_of_down hw hcurrent htab hdown hother e he
  cases heq : e.id.strictEq (ChatMessage.ofJs payload).id with
  | false => rfl
  | true => exact absurd (Clients.strictEq_key heq) hne

theorem displayAfter_deliver (o : Observed H) {t : TabId} {s : SocketId} {tab : Tab H}
    {event : RelayEvent} {rest : List RelayEvent} (hcurrent : o.world.current t = some s)
    (hdown : o.world.down s = event :: rest) (htab : o.world.clients.tabs t = some tab) :
    (∃ payload, event = .message payload ∧ o.displayAfter (.deliver t) =
      Function.update o.display t
        ((o.display t).onMessage H tab.peerId (.ofJs payload))) ∨
      ((∀ payload, event ≠ .message payload) ∧
        o.displayAfter (.deliver t) = o.display) := by
  cases event with
  | message payload =>
      refine .inl ⟨payload, rfl, ?_⟩
      simp [displayAfter, nextMessage, htab, hcurrent, hdown]
  | _ =>
      refine .inr ⟨by simp, ?_⟩
      simp [displayAfter, nextMessage, htab, hcurrent, hdown]

theorem Exact.counts_of_deliver {o : Observed H} (h : o.Exact)
    (hw : (World.system H).Reach World.ShippedFresh o.world) {t : TabId} {s : SocketId}
    {tab : Tab H} {event : RelayEvent} {rest : List RelayEvent}
    (hcurrent : o.world.current t = some s) (hdown : o.world.down s = event :: rest)
    (htab : o.world.clients.tabs t = some tab) {u : TabId} {tab' : Tab H}
    (htab' : (o.world.clients.setTab t (tab.onRelayEvent event)).tabs u = some tab') :
    ExactCount tab' (o.displayAfter (.deliver t) u)
      (if (o.displayAfter (.deliver t) u).hidden then o.shown u
        else tab'.messages.length) := by
  have hloaded := Clients.loaded_le_of_reach (World.reach_clients_any hw) t tab htab
  rcases Clients.setTab_cases htab' with ⟨rfl, rfl⟩ | ⟨hne, hold⟩
  · have hexact := h.counts u tab htab
    rcases o.displayAfter_deliver hcurrent hdown htab with
      ⟨payload, rfl, hdisplay⟩ | ⟨hnot, hdisplay⟩
    · rw [hdisplay, Function.update_self]
      refine hexact.onMessage hloaded (unlisted_of_down hw hcurrent ?_ htab)
      rw [hdown]
      exact List.mem_cons_self
    · rw [hdisplay]
      have hsame : (tab.onRelayEvent event).messages = tab.messages := by
        rcases Clients.onRelayEvent_messages tab event with hsame | ⟨payload, e, hmessage, -⟩
        · exact hsame
        · exact absurd hmessage (hnot payload)
      refine hexact.kept (Nat.le_of_eq (by rw [hsame])) ?_ rfl rfl rfl
      rw [unseen, hsame, (Clients.onRelayEvent_identity tab event).2.2.2.2.2]
      rfl
  · have hdisplay : o.displayAfter (.deliver t) u = o.display u := by
      rcases o.displayAfter_deliver hcurrent hdown htab with
        ⟨payload, rfl, hdisplay⟩ | ⟨-, hdisplay⟩
      · rw [hdisplay, Function.update_of_ne hne]
      · rw [hdisplay]
    rw [hdisplay]
    exact (h.counts u tab' hold).kept (Nat.le_refl _) rfl rfl rfl rfl

theorem marksListed_of_clientAction {w : World H}
    (hw : (World.system H).Reach World.ShippedFresh w) {a : Action} {b : ClientAction}
    (hb : w.clientAction a = some b) : MarksListed w.clients b := by
  cases b with
  | receive t event =>
      cases event with
      | message payload =>
          intro tab htab _ hto q hq hne _ _
          obtain ⟨s, hcurrent, hdown⟩ := World.receive_of_clientAction hb
          refine ⟨?_, unlisted_of_down hw hcurrent hdown htab ?_⟩
          · have hcarried := World.carried_of_reach World.shipped_of_shippedFresh hw
            obtain ⟨sent, hsent, rfl, -⟩ := hcarried.queued s payload
              ((hcarried.down_suffix s).subset hdown)
            have hm := World.wellSent_of_reach World.shipped_of_shippedFresh hw sent hsent
            have hstep := Clients.allInStep_of_reach (World.reach_clients_any hw)
            rw [hm.ofJs_eq, hm.addressee_eq] at hto
            rw [hm.ofJs_eq, hm.effectiveType_eq]
            rcases hm.addressed with ⟨-, hall⟩ | ⟨hprivate, -⟩
            · exact absurd (JsValue.str.inj (hto.symm.trans hall))
                (World.peerId_ne_broadcastId (hstep t tab htab))
            · exact hprivate
          · rw [hq]
            exact fun heq => hne (JsValue.str.inj heq)
      | _ => trivial
  | _ => trivial

theorem absent_of_change {w w' : World H} {a : Action} (hchange : World.Change w a w')
    {t : TabId} (hnone : w'.clients.tabs t = none) : w.clients.tabs t = none := by
  rcases World.clients_of_change hchange with hsame | ⟨b, -, hstep⟩
  · rw [← hsame]
    exact hnone
  · by_contra hsome
    exact Clients.tabs_ne_none_of_change (Clients.change_of_step hstep) hsome hnone

theorem Exact.marks_of_step {o : Observed H} (h : o.Exact)
    (hw : (World.system H).Reach World.ShippedFresh o.world) {a : Action} {w' : World H}
    (hchange : World.Change o.world a w') :
    (Watched.mk w'.clients
      ((Watched.mk o.world.clients o.read).readAfter w'.clients)).Exact := by
  have hclients := World.reach_clients_any hw
  have htabs : ∀ t tab, w'.clients.tabs t = some tab →
      ExactMarks tab (tab.readNow (o.read t)) := by
    rcases World.clients_of_change hchange with hsame | ⟨b, hb, hstep⟩
    · intro t tab htab
      rw [hsame] at htab
      exact (h.marks.tabs t tab htab).of_same rfl rfl (fun _ => Iff.rfl) (fun _ hp => hp)
    · exact h.marks.change (Clients.allInStep_of_reach hclients)
        (Clients.freshTab_of_reach hclients) (Clients.loaded_le_of_reach hclients)
        (marksListed_of_clientAction hw hb) (Clients.change_of_step hstep)
  refine ⟨?_, ?_⟩
  · intro t tab htab
    replace htab : w'.clients.tabs t = some tab := htab
    simp only [Watched.readAfter, htab]
    exact htabs t tab htab
  · intro t hnone
    replace hnone : w'.clients.tabs t = none := hnone
    simp only [Watched.readAfter, hnone]
    exact h.marks.unread t (absent_of_change hchange hnone)

theorem displayAfter_deliver_relayConnected (o : Observed H) (t u : TabId) :
    (o.displayAfter (.deliver t) u).relayConnected = (o.display u).relayConnected := by
  simp only [displayAfter]
  cases hnext : nextMessage o.world t with
  | none => rfl
  | some next =>
      by_cases hu : u = t
      · subst hu
        simp only [Function.update_self, Display.onMessage]
        split
        · rfl
        · split
          · rfl
          · exact Display.notify_relayConnected _
      · simp only [Function.update_of_ne hu]

theorem Exact.connected_of_step {o : Observed H} (h : o.Exact) {a : Action}
    {w' : World H} (hchange : World.Change o.world a w') (t : TabId) :
    (o.displayAfter a t).relayConnected =
      ((w'.current t).isSome || o.renamedAfter w' a t) := by
  have hold := h.connected t
  cases hchange with
  | @send u input now random clients msg hsend =>
      obtain ⟨up, sentOn, sendBuffer, heq, -⟩ :=
        World.transmit_frame { o.world with clients := clients } u msg
      rw [heq]
      exact hold
  | @keepName u name clients hclients =>
      by_cases hu : t = u
      · subst hu
        cases hcur : o.world.current t <;> simp_all [displayAfter, renamedAfter]
      · simpa [displayAfter, renamedAfter, hu] using hold
  | @newName u name clients hclients =>
      by_cases hu : t = u
      · subst hu
        simpa [displayAfter, renamedAfter, World.close, Bool.or_comm] using hold
      · simpa [displayAfter, renamedAfter, World.close, hu] using hold
  | @connect u tab htab hwants hcurrent =>
      by_cases hu : t = u
      · subst hu
        simp [displayAfter, World.openConnection]
      · simpa [displayAfter, renamedAfter, World.openConnection, hu] using hold
  | leave u =>
      by_cases hu : t = u
      · subst hu
        cases hcur : o.world.current t <;> simp_all [displayAfter, renamedAfter]
      · simp only [displayAfter, renamedAfter]
        split <;> simpa [hu] using hold
  | @deliver u s event rest tab hcurrent hdown htab hwants =>
      rw [displayAfter_deliver_relayConnected]
      exact hold
  | _ => exact hold

theorem Exact.net {o : Observed H} (h : o.Exact)
    (hw : (World.system H).Reach World.ShippedFresh o.world) {a : Action} {w' : World H}
    (hnext : o.world.step a = some w') :
    Exact { world := w'
            display := o.displayAfter a
            shown := o.shownAfter w' (o.displayAfter a)
            read := (Watched.mk o.world.clients o.read).readAfter w'.clients
            renamed := o.renamedAfter w' a } := by
  have hchange := World.change_of_step hnext
  have hcounts : ∀ t tab', w'.clients.tabs t = some tab' →
      ExactCount tab' (o.displayAfter a t)
        (if (o.displayAfter a t).hidden then o.shown t else tab'.messages.length) := by
    by_cases hdeliver : ∀ t, a ≠ .deliver t
    · exact fun t tab' => h.counts_of_quiet hw hchange hdeliver
    · simp only [ne_eq, not_forall, not_not] at hdeliver
      obtain ⟨u, rfl⟩ := hdeliver
      cases hchange with
      | deliver hcurrent hdown htab hwants =>
          exact fun t tab' => h.counts_of_deliver hw hcurrent hdown htab
  refine ⟨?_, ?_, h.marks_of_step hw hchange, h.connected_of_step hchange⟩
  · intro t tab htab
    replace htab : w'.clients.tabs t = some tab := htab
    simp only [shownAfter, htab]
    exact hcounts t tab htab
  · intro t hnone
    replace hnone : w'.clients.tabs t = none := hnone
    have hbefore := absent_of_change hchange hnone
    obtain ⟨hcount, htitle⟩ := o.displayAfter_of_absent hbefore a
    simp only [shownAfter, hnone]
    rw [hcount, htitle]
    exact h.absent t hbefore

theorem Exact.visibility {o : Observed H} (h : o.Exact) (t : TabId) (hidden : Bool) :
    Exact { o with
      display := Function.update o.display t ((o.display t).onVisibility hidden)
      shown := o.shownAfter o.world
        (Function.update o.display t ((o.display t).onVisibility hidden)) } := by
  refine ⟨?_, ?_, h.marks, ?_⟩
  · intro u tab htab
    replace htab : o.world.clients.tabs u = some tab := htab
    have hexact := h.counts u tab htab
    simp only [shownAfter, htab]
    by_cases hu : u = t
    · subst hu
      rw [Function.update_self]
      exact hexact.onVisibility hidden
    · rw [Function.update_of_ne hu]
      exact hexact.kept (Nat.le_refl _) rfl rfl rfl rfl
  · intro u hnone
    replace hnone : o.world.clients.tabs u = none := hnone
    obtain ⟨hcount, htitle, hshown⟩ := h.absent u hnone
    simp only [shownAfter, hnone]
    by_cases hu : u = t
    · subst hu
      cases hidden <;> simp [Display.onVisibility, hcount, htitle, hshown]
    · rw [Function.update_of_ne hu]
      exact ⟨hcount, htitle, hshown⟩
  · intro u
    by_cases hu : u = t
    · subst hu
      have hconnected := h.connected u
      cases hidden <;> simpa [Display.onVisibility] using hconnected
    · simpa [Function.update_of_ne hu] using h.connected u

theorem exact_initial : (initial H).Exact where
  counts t tab htab := by cases htab
  absent _ _ := ⟨rfl, rfl, rfl⟩
  marks := ⟨(fun _ _ htab => by cases htab), fun _ _ => rfl⟩
  connected _ := rfl

theorem Exact.notificationTimeout {o : Observed H} (h : o.Exact) (t : TabId) :
    Exact { o with display :=
      Function.update o.display t { o.display t with p2pNotification := false } } := by
  have hsame : ∀ u, ∃ b, Function.update o.display t
      { o.display t with p2pNotification := false } u =
        { o.display u with p2pNotification := b } := by
    intro u
    by_cases hu : u = t
    · subst hu
      exact ⟨false, Function.update_self ..⟩
    · exact ⟨_, Function.update_of_ne hu ..⟩
  refine ⟨?_, ?_, h.marks, ?_⟩
  · intro u tab htab
    obtain ⟨b, hb⟩ := hsame u
    have hexact := h.counts u tab htab
    simp only [hb]
    exact ⟨hexact.since_le, hexact.visible, hexact.count, hexact.title⟩
  · intro u hnone
    obtain ⟨b, hb⟩ := hsame u
    simp only [hb]
    exact h.absent u hnone
  · intro u
    obtain ⟨b, hb⟩ := hsame u
    simp only [hb]
    exact h.connected u

theorem exact_of_reach {o : Observed H} (ho : (system H).Reach ShippedFresh o) :
    o.Exact := by
  refine ho.invariant (I := Exact) exact_initial ?_
  intro o a o' hreach h hok hnext
  cases a with
  | net a =>
      obtain ⟨w', hw', rfl⟩ := Option.map_eq_some_iff.mp hnext
      exact h.net (reach_world hreach) hw'
  | visibility t hidden =>
      cases hnext
      exact h.visibility t hidden
  | notificationTimeout t =>
      simp only [system, step] at hnext
      split at hnext
      · cases hnext
        exact h.notificationTimeout t
      · cases hnext

end Observed

end CommonChat.Network
