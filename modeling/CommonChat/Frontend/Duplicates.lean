import CommonChat.Frontend.Runs

/-!
# The duplicate check

The `message` handler drops a payload whose id is already listed.  The id is
chosen by the sender, is not signed and may be absent, so the check can take a
message for a copy of another one; it does so exactly when the two share an id.
-/

namespace CommonChat.Frontend

open CommonChat.Foundation
open CommonChat.Core
open CommonChat.Relay

variable {H : Host}

def Lists (messages : List ChatMessage) (m : ChatMessage) : Prop :=
  ∃ e ∈ messages, e.peerId = m.peerId ∧ e.text = m.text ∧
    e.signatureHex = m.signatureHex

structure AddressedTo (me : JsString) (m : ChatMessage) : Prop where
  recipient : m.recipient.isNullish = true ∨ m.recipient = .str broadcastId ∨
    m.recipient = .str me
  private_only : m.type = .str privateType → m.recipient = .str me

theorem AddressedTo.addressee {me : JsString} {m : ChatMessage}
    (h : AddressedTo me m) :
    (Tab.addressee m = .str broadcastId ∨ Tab.addressee m = .str me) ∧
      (Tab.effectiveType m = .str privateType → Tab.addressee m = .str me) := by
  have hread : Tab.addressee m = .str broadcastId ∨ Tab.addressee m = .str me := by
    rcases h.recipient with hnone | hall | hme
    · exact .inl (if_pos hnone)
    · left
      rw [Tab.addressee, hall]
      rfl
    · right
      rw [Tab.addressee, hme]
      rfl
  refine ⟨hread, ?_⟩
  intro htype
  unfold Tab.effectiveType JsValue.coalesce at htype
  split at htype
  · split at htype
    · exact absurd (JsValue.str.inj htype) (by decide)
    · rename_i hnot
      exact hread.resolve_left fun hall => hnot (by rw [hall]; simp)
  · rw [Tab.addressee, h.private_only htype]
    rfl

theorem incoming_of_addressedTo {me : JsString} {m : ChatMessage}
    (hverifies : verifySignature H m.peerId m.text m.signatureHex = true)
    (haddressed : AddressedTo me m) (htext : m.text.truthy = true) :
    ∃ e, Tab.incoming H me m = some e ∧ e.peerId = m.peerId ∧
      e.text = m.text ∧ e.signatureHex = m.signatureHex ∧ e.id = m.id := by
  obtain ⟨hpeer, hsig⟩ := truthy_of_verifySignature hverifies
  obtain ⟨hread, hprivate⟩ := haddressed.addressee
  exact ⟨_, (Tab.incoming_eq_some_iff me m _).mpr
    ⟨⟨htext, hsig, hpeer⟩, hverifies, hprivate, hread, rfl⟩, rfl, rfl, rfl, rfl⟩

theorem lists_onMessage_iff (tab : Tab H) {m : ChatMessage}
    (hverifies : verifySignature H m.peerId m.text m.signatureHex = true)
    (haddressed : AddressedTo tab.peerId m) :
    Lists (tab.onMessage m).messages m ↔
      (m.text.truthy = true ∧ ∀ e ∈ tab.messages, e.id.strictEq m.id = false) ∨
        Lists tab.messages m := by
  by_cases htext : m.text.truthy = true
  · obtain ⟨e, hin, hpeer, htext', hsig, hid⟩ :=
      incoming_of_addressedTo hverifies haddressed htext
    have hlist : (tab.onMessage m).messages = Tab.appendNew tab.messages e := by
      simp only [Tab.onMessage, hin]
    rw [hlist, Tab.appendNew, hid]
    by_cases hknown : (tab.messages.any fun e' => e'.id.strictEq m.id) = true
    · rw [if_pos hknown]
      refine ⟨.inr, ?_⟩
      rintro (⟨-, hfresh⟩ | hlisted)
      · obtain ⟨e', he', hsame⟩ := List.any_eq_true.mp hknown
        rw [hfresh e' he'] at hsame
        cases hsame
      · exact hlisted
    · rw [if_neg hknown]
      have hfresh : ∀ e' ∈ tab.messages, e'.id.strictEq m.id = false := by
        simpa using hknown
      refine ⟨fun _ => .inl ⟨htext, hfresh⟩, fun _ => ?_⟩
      exact ⟨e, List.mem_append_right _ (List.mem_singleton_self e), hpeer, htext',
        hsig⟩
  · have hnone : Tab.incoming H tab.peerId m = none := by
      cases hin : Tab.incoming H tab.peerId m with
      | none => rfl
      | some e => exact absurd ((Tab.incoming_eq_some_iff _ m e).mp hin).1.1 htext
    have hlist : (tab.onMessage m).messages = tab.messages := by
      simp only [Tab.onMessage, hnone]
    rw [hlist]
    simp [htext]

namespace Clients

/--
A delivered payload that verifies and is addressed to the tab is listed after
the handler exactly when its text is not empty and its id is not listed yet, or
when it was listed before.
-/
theorem delivered_listed_iff {c c' : Clients H} {t : TabId} {tab : Tab H}
    {payload : JsValue} (htab : c.tabs t = some tab)
    (hverifies : verifySignature H (ChatMessage.ofJs payload).peerId
      (ChatMessage.ofJs payload).text (ChatMessage.ofJs payload).signatureHex = true)
    (haddressed : AddressedTo tab.peerId (.ofJs payload))
    (hstep : c.step (.receive t (.message payload)) = some c') :
    ∃ tab', c'.tabs t = some tab' ∧
      (Lists tab'.messages (.ofJs payload) ↔
        ((ChatMessage.ofJs payload).text.truthy = true ∧
          ∀ e ∈ tab.messages, e.id.strictEq (ChatMessage.ofJs payload).id = false) ∨
        Lists tab.messages (.ofJs payload)) := by
  cases change_of_step hstep with
  | @receive _ tab₁ htab₁ hwants _ =>
      obtain rfl : tab = tab₁ := Option.some.inj (htab.symm.trans htab₁)
      exact ⟨_, setTab_self c t _, lists_onMessage_iff tab hverifies haddressed⟩

theorem addressedTo_plainMessage (me : JsString) (n : UInt8) (id text : JsString) :
    AddressedTo me (plainMessage n id text) :=
  ⟨.inr (.inl rfl), fun h => absurd (JsValue.str.inj h) (by decide)⟩

theorem delivered_listed_second :
    ∃ (c c' : Clients plainHost) (tab tab' : Tab plainHost),
      c.tabs 0 = some tab ∧ c'.tabs 0 = some tab' ∧ tab.messages.length = 1 ∧
      c.step (.receive 0 (.message (plainMessage 3 (js "y") (js "b")).toJs)) =
        some c' ∧
      Lists tab'.messages (plainMessage 3 (js "y") (js "b")) := by
  obtain ⟨c, -, hcheck⟩ := System.exists_reach_of_exec
    (system plainHost) (fun _ _ => True) (fun _ _ => true)
    ([.load 0, .handleInitialize 0 (js "P") (plainKey 1),
      .receive 0 (.message (plainMessage 2 (js "x") (js "a")).toJs)])
    (fun c => ((c.tabs 0).any fun tab => tab.messages.length = 1 &&
        tab.messages.all fun e => e.id.strictEq (.str (js "x"))) &&
      (c.step (.receive 0 (.message
        (plainMessage 3 (js "y") (js "b")).toJs))).isSome)
    (fun _ _ _ => trivial) (by decide +kernel)
  simp only [Bool.and_eq_true, Option.any_eq_true, decide_eq_true_eq,
    List.all_eq_true, JsValue.strictEq_str_iff] at hcheck
  obtain ⟨⟨tab, htab, hlen, hids⟩, hsome⟩ := hcheck
  obtain ⟨c', hstep⟩ := Option.isSome_iff_exists.mp hsome
  obtain ⟨tab', htab', hiff⟩ := delivered_listed_iff
    htab (by decide +kernel)
    (addressedTo_plainMessage _ 3 _ _) hstep
  refine ⟨c, c', tab, tab', htab, htab', hlen, hstep, hiff.mpr (.inl ⟨rfl, ?_⟩)⟩
  intro e he
  rw [hids e he]
  rfl

theorem not_listed_of_shared_id :
    ¬ ∀ (H : Host) (c c' : Clients H), (system H).Reach (fun _ _ => True) c →
      ∀ t tab payload, c.tabs t = some tab →
        verifySignature H (ChatMessage.ofJs payload).peerId
          (ChatMessage.ofJs payload).text
          (ChatMessage.ofJs payload).signatureHex = true →
        AddressedTo tab.peerId (.ofJs payload) →
        c.step (.receive t (.message payload)) = some c' →
        ∃ tab', c'.tabs t = some tab' ∧ Lists tab'.messages (.ofJs payload) := by
  intro hall
  obtain ⟨c, hc, hcheck⟩ := System.exists_reach_of_exec
    (system plainHost) (fun _ _ => True) (fun _ _ => true)
    ([.load 0, .handleInitialize 0 (js "P") (plainKey 1),
      .receive 0 (.message (plainMessage 2 (js "x") (js "a")).toJs)])
    (fun c => (c.tabs 0).isSome &&
      (c.step (.receive 0 (.message
        (plainMessage 3 (js "x") (js "b")).toJs))).any fun c' =>
          (c'.tabs 0).all fun tab =>
            tab.messages.all fun e => !e.peerId.strictEq (.str (plainPeer 3)))
    (fun _ _ _ => trivial) (by decide +kernel)
  simp only [Bool.and_eq_true, Option.any_eq_true] at hcheck
  obtain ⟨hsome, c', hstep, hothers⟩ := hcheck
  obtain ⟨tab, htab⟩ := Option.isSome_iff_exists.mp hsome
  obtain ⟨tab', htab', e, he, hpeer, -⟩ := hall plainHost c c' hc 0 tab
    (plainMessage 3 (js "x") (js "b")).toJs htab (by decide +kernel)
    (addressedTo_plainMessage _ 3 _ _) hstep
  rw [htab', Option.all_some, List.all_eq_true] at hothers
  have hnot := hothers e he
  rw [hpeer] at hnot
  simp [plainMessage] at hnot

end Clients

end CommonChat.Frontend
