import CommonChat.Frontend.Lists

/-!
# Admission

What holds of every entry that a tab lists or a browser stores.  Entries come
back from local storage unverified, so the property is one of memory and storage
together, for every order of sends, deliveries, renames, persists and reloads.
-/

namespace CommonChat.Frontend

open CommonChat.Foundation
open CommonChat.Core
open CommonChat.Relay

variable {H : Host}

/-- The entry is a local send of the peer `me`, perhaps read back from storage. -/
def ComposedBy (log : List Composed) (me : JsString) (e : ChatMessage) : Prop :=
  ∃ sent ∈ log, sent.peerId = me ∧
    (e = sent.message ∨ e = sent.message.throughJson)

def Verified (H : Host) (e : ChatMessage) : Prop :=
  ∃ p t s, e.peerId = .str p ∧ e.text = .str t ∧ e.signatureHex = .str s ∧
    Core.verifySignature H.ed25519 (encodeUtf8 p) (encodeUtf8 t) (encodeUtf8 s) =
      .ok true

structure Accepted (H : Host) (me : JsString) (m : ChatMessage) : Prop where
  text_truthy : m.text.truthy = true
  verifies : verifySignature H m.peerId m.text m.signatureHex = true
  addressed : Tab.addressee m = .str broadcastId ∨ Tab.addressee m = .str me
  private_only : Tab.effectiveType m = .str privateType →
    Tab.addressee m = .str me

theorem accepted_of_incoming {me : JsString} {m e : ChatMessage}
    (h : Tab.incoming H me m = some e) : Accepted H me m := by
  obtain ⟨⟨htext, -⟩, hverify, hprivate, haddressed, -⟩ :=
    (Tab.incoming_eq_some_iff me m e).mp h
  exact ⟨htext, hverify, haddressed, hprivate⟩

theorem incoming_of_accepted {me : JsString} {m : ChatMessage}
    (h : Accepted H me m) : ∃ e, Tab.incoming H me m = some e := by
  obtain ⟨hpeer, hsigned⟩ := truthy_of_verifySignature h.verifies
  exact ⟨_, (Tab.incoming_eq_some_iff me m _).mpr
    ⟨⟨h.text_truthy, hsigned, hpeer⟩, h.verifies, h.private_only, h.addressed, rfl⟩⟩

structure Admitted (H : Host) (log : List Composed) (me : JsString)
    (e : ChatMessage) : Prop where
  verified : Verified H e
  fromMe_eq : e.fromMe = .bool (e.peerId.strictEq (.str me))
  addressed : ComposedBy log me e ∨ Tab.addressee e = .str broadcastId ∨
    Tab.addressee e = .str me

def ClientAction.stringPayload : ClientAction → Bool
  | .receive _ (.message payload) =>
      match payload.field (js "text"), payload.field (js "peerId"),
          payload.field (js "signatureHex") with
      | .str _, .str _, .str _ => true
      | _, _, _ => false
  | _ => true

/-! ## The two places where lists grow -/

theorem verified_composed (hE : H.ed25519.Correct) {tab : Tab H}
    (hstep : Clients.InStep tab) {input : JsString} {now : Nat}
    {random : JsString} {msg : ChatMessage}
    (h : tab.composeMessage input now random = some msg) : Verified H msg := by
  obtain ⟨-, -, identity, hid, rfl⟩ := Tab.composeMessage_eq_some h
  refine ⟨_, _, _, rfl, rfl, rfl, ?_⟩
  have hsig : ∀ b ∈ identity.sign (encodeUtf8 (trim input)), b.toNat < 0x80 :=
    H.ed25519.hex.encode_ascii _
  rw [hstep.peerId_eq identity hid, encodeUtf8_ofAscii (ascii_pubKey identity),
    encodeUtf8_ofAscii hsig]
  exact verifySignature_sign hE identity _

theorem admitted_composed (hE : H.ed25519.Correct) {tab : Tab H}
    (hstep : Clients.InStep tab) {input : JsString} {now : Nat}
    {random : JsString} {msg : ChatMessage} {log : List Composed}
    (h : tab.composeMessage input now random = some msg)
    (hlog : ComposedBy log tab.peerId msg) :
    Admitted H log tab.peerId msg where
  verified := verified_composed hE hstep h
  fromMe_eq := by
    obtain ⟨-, -, identity, -, rfl⟩ := Tab.composeMessage_eq_some h
    simp
  addressed := .inl hlog

theorem admitted_incoming {me : JsString} {m e : ChatMessage}
    {log : List Composed} {t : JsString} (htext : m.text = .str t)
    (h : Tab.incoming H me m = some e) : Admitted H log me e := by
  obtain ⟨-, hverify, -, haddressed, rfl⟩ := (Tab.incoming_eq_some_iff me m e).mp h
  refine ⟨?_, rfl, .inr haddressed⟩
  obtain ⟨p, s, text, pk, sig, hp, hs, hpass, hpk, hsig, hvalid, hcheck⟩ :=
    exists_of_verifySignature hverify
  rw [htext] at hpass
  obtain rfl : encodeUtf8 t = text := Option.some.inj hpass
  exact ⟨p, t, s, hp, htext, hs,
    (verifySignature_eq_ok_true_iff _ _ _).mpr
      ⟨pk, sig, hpk, hsig, hvalid, hcheck⟩⟩

/-! ## Storage -/

theorem ComposedBy.throughJson {log : List Composed} {me : JsString}
    {e : ChatMessage} (h : ComposedBy log me e) :
    ComposedBy log me e.throughJson := by
  obtain ⟨sent, hmem, hpeer, rfl | rfl⟩ := h
  · exact ⟨sent, hmem, hpeer, .inr rfl⟩
  · exact ⟨sent, hmem, hpeer, .inr sent.message.throughJson_throughJson⟩

theorem ComposedBy.mono {log log' : List Composed} {me : JsString}
    {e : ChatMessage} (hsub : log ⊆ log') (h : ComposedBy log me e) :
    ComposedBy log' me e := by
  obtain ⟨sent, hmem, hrest⟩ := h
  exact ⟨sent, hsub hmem, hrest⟩

theorem Verified.throughJson {e : ChatMessage} (h : Verified H e) :
    Verified H e.throughJson := by
  obtain ⟨p, t, s, hp, ht, hs, hok⟩ := h
  refine ⟨p, t, s, ?_, ?_, ?_, hok⟩
  · simp only [ChatMessage.throughJson, hp, JsValue.throughJson_str]
  · simp only [ChatMessage.throughJson, ht, JsValue.throughJson_str]
  · simp only [ChatMessage.throughJson, hs, JsValue.throughJson_str]

theorem addressee_throughJson {e : ChatMessage} {s : JsString}
    (h : Tab.addressee e = .str s) : Tab.addressee e.throughJson = .str s :=
  JsValue.coalesce_throughJson h

theorem Admitted.throughJson {log : List Composed} {me : JsString}
    {e : ChatMessage} (h : Admitted H log me e) :
    Admitted H log me e.throughJson where
  verified := h.verified.throughJson
  fromMe_eq := by
    obtain ⟨p, -, -, hp, -⟩ := h.verified
    simp only [ChatMessage.throughJson, h.fromMe_eq, hp, JsValue.throughJson_str,
      JsValue.throughJson_bool]
  addressed := by
    rcases h.addressed with hcomposed | hbroadcast | hme
    · exact .inl hcomposed.throughJson
    · exact .inr (.inl (addressee_throughJson hbroadcast))
    · exact .inr (.inr (addressee_throughJson hme))

/-! ## Runs -/

namespace Clients

private theorem text_of_stringPayload {t : TabId} {payload : JsValue}
    (h : (ClientAction.receive t (.message payload)).stringPayload = true) :
    ∃ text, (ChatMessage.ofJs payload).text = .str text := by
  simp only [ClientAction.stringPayload] at h
  split at h
  · rename_i text _ _ htext _ _
    exact ⟨text, htext⟩
  · cases h

theorem admitted_change (hE : H.ed25519.Correct) {c c' : Clients H}
    {a : ClientAction} (h : AllEntries (Admitted H c.composed) c)
    (hstep : c.AllInStep) (hstrings : a.stringPayload = true)
    (hchange : Change c a c') : AllEntries (Admitted H c'.composed) c' := by
  refine h.change hstep hchange ?_ (fun _ _ he => he.throughJson) ?_ ?_
  · intro me e he
    refine { he with addressed := ?_ }
    exact he.addressed.imp_left (ComposedBy.mono (composed_subset hchange))
  · rintro t input now random msg tab rfl hsend htab
    obtain ⟨tab', identity, htab', hid, hmsg, rfl⟩ := signAndSend_cases hsend
    obtain rfl : tab = tab' := Option.some.inj (htab.symm.trans htab')
    refine admitted_composed hE (hstep t tab htab) hmsg ?_
    exact ⟨_, List.mem_append_right _ (List.mem_singleton_self _), rfl, .inl rfl⟩
  · rintro t tab payload e rfl htab he
    obtain ⟨text, htext⟩ := text_of_stringPayload hstrings
    exact admitted_incoming htext he

/--
Every entry of every tab of `me`, and of every list stored under its key, is
verified, marked by its author, and addressed to everyone or to `me` unless it
was composed by `me`.
-/
theorem admitted_of_reach (hE : H.ed25519.Correct) {c : Clients H}
    (hc : (system H).Reach (fun _ a => a.stringPayload = true) c)
    (me : JsString) :
    (∀ t tab, c.tabs t = some tab → tab.peerId = me →
      ∀ e ∈ tab.messages, Admitted H c.composed me e) ∧
    (∀ b list, (c.storage b).messages (storageKey me) = some list →
      ∀ e ∈ list, Admitted H c.composed me e) := by
  have hall : AllEntries (Admitted H c.composed) c :=
    hc.invariant (I := fun c => AllEntries (Admitted H c.composed) c)
      (allEntries_initial _) fun _ _ _ hreach h hok hnext =>
        admitted_change hE h (allInStep_of_reach hreach) hok (change_of_step hnext)
  refine ⟨?_, fun b => hall.stored b me⟩
  rintro t tab htab rfl
  exact hall.listed t tab htab

theorem admitted_after_reload :
    ∃ c : Clients plainHost,
      (system plainHost).Reach (fun _ a => a.stringPayload = true) c ∧
      ∃ tab, c.tabs 1 = some tab ∧ tab.messages.length = 2 ∧
        ∀ e ∈ tab.messages, Admitted plainHost c.composed (plainPeer 1) e := by
  obtain ⟨c, hc, hcheck⟩ := System.exists_reach_of_exec
    (system plainHost) (fun _ a => a.stringPayload = true)
    (fun _ a => a.stringPayload)
    (
      [.load 0, .handleInitialize 0 (js "P") (plainKey 1),
        .signAndSend 0 (js "hi") 7 (js "x"), .persist 0, .load 0,
        .receive 1 (.message (plainMessage 2 (js "other") (js "hey")).toJs)])
    (fun c => (c.tabs 1).any fun tab =>
      tab.messages.length = 2 && tab.peerId = plainPeer 1)
    (fun _ _ h => h) (by decide +kernel)
  simp only [Option.any_eq_true, Bool.and_eq_true, decide_eq_true_eq] at hcheck
  obtain ⟨tab, htab, hlen, hpeer⟩ := hcheck
  exact ⟨c, hc, tab, htab, hlen,
    (admitted_of_reach plainEd25519_correct hc (plainPeer 1)).1 1 tab htab hpeer⟩

end Clients

end CommonChat.Frontend
