import CommonChat.Frontend.Unread

/-!
# Outside the lists

What a page shows besides its lists: the number in the window title, the
notification and the indicator of the connection.  The number counts the messages
of others since the window was last in view.  It is set outside the duplicate
check of the list, so it is exact as long as nothing comes twice.
-/

namespace CommonChat.Frontend

open CommonChat.Foundation
open CommonChat.Core
open CommonChat.Relay

structure Display where
  hidden : Bool
  relayConnected : Bool
  p2pNotification : Bool
  tabUnreadCount : Nat
  title : JsString

namespace Display

def baseTitle : JsString := js "CommonChat"

def titleOf (tabUnreadCount : Nat) : JsString :=
  if tabUnreadCount > 0 then
    js "(" ++ (Nat.toDigits 10 tabUnreadCount).map (fun c => c.val.toUInt16) ++
      js ") New Message - CommonChat"
  else baseTitle

def initial : Display where
  hidden := false
  relayConnected := false
  p2pNotification := false
  tabUnreadCount := 0
  title := baseTitle

def setTabUnreadCount (d : Display) (count : Nat) : Display :=
  if count = d.tabUnreadCount then d
  else { d with tabUnreadCount := count, title := titleOf count }

def onVisibility (d : Display) (hidden : Bool) : Display :=
  if hidden then { d with hidden := true }
  else { (d.setTabUnreadCount 0) with hidden := false, title := baseTitle }

/-- What the `message` handler does for a message of another peer. -/
def notify (d : Display) : Display :=
  let d' := { d with p2pNotification := true }
  if d.hidden then d'.setTabUnreadCount (d.tabUnreadCount + 1) else d'

def onMessage (H : Host) (myId : JsString) (d : Display) (chatMsg : ChatMessage) :
    Display :=
  match Tab.incoming H myId chatMsg with
  | none => d
  | some _ => if chatMsg.peerId.strictEq (.str myId) then d else d.notify

@[simp] theorem setTabUnreadCount_hidden (d : Display) (count : Nat) :
    (d.setTabUnreadCount count).hidden = d.hidden := by
  unfold setTabUnreadCount
  split <;> rfl

@[simp] theorem setTabUnreadCount_tabUnreadCount (d : Display) (count : Nat) :
    (d.setTabUnreadCount count).tabUnreadCount = count := by
  unfold setTabUnreadCount
  split
  · rename_i h
    exact h.symm
  · rfl

theorem setTabUnreadCount_title {d : Display} (h : d.title = titleOf d.tabUnreadCount)
    (count : Nat) : (d.setTabUnreadCount count).title = titleOf count := by
  unfold setTabUnreadCount
  split
  · rename_i hsame
    rw [hsame, h]
  · rfl

@[simp] theorem setTabUnreadCount_relayConnected (d : Display) (count : Nat) :
    (d.setTabUnreadCount count).relayConnected = d.relayConnected := by
  unfold setTabUnreadCount
  split <;> rfl

@[simp] theorem notify_hidden (d : Display) : d.notify.hidden = d.hidden := by
  unfold notify
  simp only
  split <;> simp

@[simp] theorem notify_relayConnected (d : Display) :
    d.notify.relayConnected = d.relayConnected := by
  unfold notify
  simp only
  split <;> simp

theorem notify_tabUnreadCount (d : Display) :
    d.notify.tabUnreadCount = d.tabUnreadCount + if d.hidden then 1 else 0 := by
  unfold notify
  simp only
  split <;> simp_all

theorem notify_title {d : Display} (h : d.title = titleOf d.tabUnreadCount) :
    d.notify.title = titleOf d.notify.tabUnreadCount := by
  unfold notify
  simp only
  split
  · rw [setTabUnreadCount_tabUnreadCount]
    apply setTabUnreadCount_title
    exact h
  · exact h

end Display

variable {H : Host}

/-- The entries of others since the page load, after the first `since` entries. -/
def unseen (tab : Tab H) (since : Nat) : List ChatMessage :=
  (tab.messages.drop (max tab.loaded since)).filter fun e => !e.fromMe.truthy

/-! ## The count of one tab -/

structure ExactCount (tab : Tab H) (d : Display) (since : Nat) : Prop where
  since_le : since ≤ tab.messages.length
  visible : d.hidden = false → since = tab.messages.length
  count : d.tabUnreadCount = (unseen tab since).length
  title : d.title = Display.titleOf d.tabUnreadCount

theorem unseen_of_drop {tab : Tab H} {since : Nat}
    (h : tab.messages.drop (max tab.loaded since) = []) : unseen tab since = [] := by
  rw [unseen, h]
  rfl

theorem unseen_length (tab : Tab H) : unseen tab tab.messages.length = [] :=
  unseen_of_drop (List.drop_eq_nil_of_le (Nat.le_max_right _ _))

theorem unseen_append {tab tab' : Tab H} {since : Nat} {e : ChatMessage}
    (hloaded : tab.loaded ≤ tab.messages.length) (hsince : since ≤ tab.messages.length)
    (hsame : tab'.loaded = tab.loaded) (happend : tab'.messages = tab.messages ++ [e]) :
    unseen tab' since =
      unseen tab since ++ if e.fromMe.truthy then [] else [e] := by
  rw [unseen, hsame, happend, List.drop_append_of_le_length (Nat.max_le.mpr ⟨hloaded, hsince⟩),
    List.filter_append]
  cases htruthy : e.fromMe.truthy <;> simp [unseen, htruthy]

theorem exactCount_shown {tab : Tab H} {d : Display} {since : Nat}
    (hle : since ≤ tab.messages.length)
    (hhidden : d.hidden = true → d.tabUnreadCount = (unseen tab since).length)
    (hvisible : d.hidden = false → d.tabUnreadCount = 0)
    (htitle : d.title = Display.titleOf d.tabUnreadCount) :
    ExactCount tab d (if d.hidden then since else tab.messages.length) := by
  cases h : d.hidden with
  | true =>
      refine ⟨by simpa using hle, ?_, by simpa using hhidden h, htitle⟩
      rw [h]
      intro hno
      cases hno
  | false =>
      refine ⟨by simp, fun _ => by simp, ?_, htitle⟩
      rw [hvisible h]
      simp [unseen_length]

theorem ExactCount.count_of_visible {tab : Tab H} {d : Display} {since : Nat}
    (h : ExactCount tab d since) (hvisible : d.hidden = false) :
    d.tabUnreadCount = 0 := by
  rw [h.count, h.visible hvisible, unseen_length]
  rfl

theorem ExactCount.kept {tab tab' : Tab H} {d d' : Display} {since : Nat}
    (h : ExactCount tab d since) (hle : tab.messages.length ≤ tab'.messages.length)
    (hunseen : unseen tab' since = unseen tab since) (hhidden : d'.hidden = d.hidden)
    (hcount : d'.tabUnreadCount = d.tabUnreadCount) (htitle : d'.title = d.title) :
    ExactCount tab' d' (if d'.hidden then since else tab'.messages.length) := by
  refine exactCount_shown (h.since_le.trans hle) ?_ ?_ ?_
  · intro _
    rw [hcount, hunseen, h.count]
  · intro hvisible
    rw [hcount]
    exact h.count_of_visible (hhidden ▸ hvisible)
  · rw [htitle, hcount, h.title]

theorem ExactCount.append {tab tab' : Tab H} {d d' : Display} {since : Nat}
    (h : ExactCount tab d since) (hloaded : tab.loaded ≤ tab.messages.length)
    (hsame : tab'.loaded = tab.loaded) {e : ChatMessage}
    (happend : tab'.messages = tab.messages ++ [e]) (hown : e.fromMe.truthy = true)
    (hhidden : d'.hidden = d.hidden) (hcount : d'.tabUnreadCount = d.tabUnreadCount)
    (htitle : d'.title = d.title) :
    ExactCount tab' d' (if d'.hidden then since else tab'.messages.length) := by
  refine h.kept ?_ ?_ hhidden hcount htitle
  · rw [happend, List.length_append]
    exact Nat.le_add_right _ _
  · rw [unseen_append hloaded h.since_le hsame happend, if_pos hown, List.append_nil]

theorem ExactCount.notify {tab tab' : Tab H} {d : Display} {since : Nat}
    (h : ExactCount tab d since) (hloaded : tab.loaded ≤ tab.messages.length)
    (hsame : tab'.loaded = tab.loaded) {e : ChatMessage}
    (happend : tab'.messages = tab.messages ++ [e]) (hother : e.fromMe.truthy = false) :
    ExactCount tab' d.notify
      (if d.notify.hidden then since else tab'.messages.length) := by
  refine exactCount_shown ?_ ?_ ?_ (Display.notify_title h.title)
  · rw [happend, List.length_append]
    exact h.since_le.trans (Nat.le_add_right _ _)
  · intro hhidden
    rw [Display.notify_hidden] at hhidden
    rw [Display.notify_tabUnreadCount, if_pos hhidden,
      unseen_append hloaded h.since_le hsame happend, if_neg (by simp [hother]),
      List.length_append, h.count]
    rfl
  · intro hvisible
    rw [Display.notify_hidden] at hvisible
    rw [Display.notify_tabUnreadCount, if_neg (by simp [hvisible]),
      h.count_of_visible hvisible]

/-- The handler counts what it lists, if no message of another peer is listed already. -/
theorem ExactCount.onMessage {tab : Tab H} {d : Display} {since : Nat}
    (h : ExactCount tab d since) (hloaded : tab.loaded ≤ tab.messages.length)
    {m : ChatMessage} (hnew : m.peerId ≠ .str tab.peerId →
      ∀ e ∈ tab.messages, e.id.strictEq m.id = false) :
    ExactCount (tab.onMessage m) (d.onMessage H tab.peerId m)
      (if (d.onMessage H tab.peerId m).hidden then since
        else (tab.onMessage m).messages.length) := by
  cases hin : Tab.incoming H tab.peerId m with
  | none =>
      simp only [Tab.onMessage, Display.onMessage, hin]
      exact h.kept (Nat.le_refl _) rfl rfl rfl rfl
  | some e =>
      obtain ⟨-, -, -, -, he⟩ := (Tab.incoming_eq_some_iff tab.peerId m e).mp hin
      have hid : e.id = m.id := by rw [he]
      have hmark : e.fromMe = .bool (m.peerId.strictEq (.str tab.peerId)) := by rw [he]
      rw [onMessage_eq hin]
      simp only [Display.onMessage, hin]
      by_cases hme : m.peerId = .str tab.peerId
      · rw [if_pos ((JsValue.strictEq_str_iff _ _).mpr hme)]
        unfold Tab.appendNew
        split
        · exact h.kept (Nat.le_refl _) rfl rfl rfl rfl
        · refine h.append hloaded rfl rfl ?_ rfl rfl rfl
          simp [hmark, hme, JsValue.truthy]
      · have happend : Tab.appendNew tab.messages e = tab.messages ++ [e] := by
          rw [Tab.appendNew, if_neg]
          simpa [hid] using hnew hme
        rw [if_neg (by simpa using hme), happend]
        refine h.notify hloaded rfl rfl ?_
        rw [hmark, (JsValue.strictEq_str_false_iff _ _).mpr hme]
        rfl

theorem ExactCount.onVisibility {tab : Tab H} {d : Display} {since : Nat}
    (h : ExactCount tab d since) (hidden : Bool) :
    ExactCount tab (d.onVisibility hidden)
      (if (d.onVisibility hidden).hidden then since else tab.messages.length) := by
  cases hidden with
  | true => exact exactCount_shown h.since_le (fun _ => h.count) nofun h.title
  | false =>
      refine exactCount_shown h.since_le nofun ?_ ?_
      · intro _
        simp [Display.onVisibility]
      · simp [Display.onVisibility, Display.titleOf]

end CommonChat.Frontend
