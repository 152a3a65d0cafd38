import CommonChat.Frontend.Lists
import CommonChat.Frontend.PeerId

/-!
# Text authenticity

If an entry carries the key of an honest party, that party composed its text in
this application.  The relay, the network and all other clients are the
adversary: `receive` takes any event, provided that what verifies under the
honest key was signed with it.
-/

namespace CommonChat.Frontend

open CommonChat.Foundation
open CommonChat.Core
open CommonChat.Relay

variable {H : Host}

/--
Unforgeability at a reception: a signature that verifies under `pk` on the
framed text was produced with that key on that same payload.
-/
def Clients.Unforged (pk : PublicKey) (c : Clients H) : ClientAction → Prop
  | .receive _ (.message payload) =>
      ∀ (p s : JsString) (text : Bytes) (sig : Signature),
        payload.field (js "peerId") = .str p → Spells H p pk →
        payload.field (js "signatureHex") = .str s →
        H.ed25519.hex.decode (encodeUtf8 s) = .ok sig.bytes →
        passStringToWasm0 H (payload.field (js "text")) = some text →
        H.ed25519.verify pk sig (unionUnique chatNamespace text) = true →
        (pk, unionUnique chatNamespace text) ∈ c.signed
  | _ => True

def Wrote (log : List Composed) (pk : PublicKey) (e : ChatMessage) : Prop :=
  ∃ t, e.text = .str t ∧
    ∃ sent ∈ log, sent.key = pk ∧ encodeUtf8 sent.text = encodeUtf8 t

def Authentic (H : Host) (log : List Composed) (pk : PublicKey) (e : ChatMessage) : Prop :=
  ∀ p, e.peerId = .str p → Spells H p pk → Wrote log pk e

/-! ## What keys sign -/

namespace Clients

structure SignedHere (c : Clients H) : Prop where
  text_ne_nil : ∀ sent ∈ c.composed, sent.text ≠ []
  origin : ∀ pk payload, (pk, payload) ∈ c.signed →
    (∃ sent ∈ c.composed, sent.key = pk ∧
      payload = unionUnique chatNamespace (encodeUtf8 sent.text)) ∨
    ∃ ns msg, ns ≠ chatNamespace ∧ payload = unionUnique ns msg

theorem signedHere_initial : (initial H).SignedHere := ⟨nofun, nofun⟩

theorem SignedHere.change {c c' : Clients H} {a : ClientAction}
    (h : c.SignedHere) (hchange : Change c a c') : c'.SignedHere := by
  cases hchange with
  | signAndSend hsend =>
      obtain ⟨tab, identity, -, -, hmsg, rfl⟩ := signAndSend_cases hsend
      constructor
      · intro sent hsent
        rcases List.mem_append.mp hsent with hold | hnew
        · exact h.text_ne_nil sent hold
        · rw [List.mem_singleton.mp hnew]
          exact (Tab.composeMessage_eq_some hmsg).1
      · intro pk payload hmem
        rcases List.mem_append.mp hmem with hold | hnew
        · rcases h.origin pk payload hold with ⟨sent, hsent, hrest⟩ | helse
          · exact .inl ⟨sent, List.mem_append_left _ hsent, hrest⟩
          · exact .inr helse
        · cases List.mem_singleton.mp hnew
          exact .inl ⟨_, List.mem_append_right _ (List.mem_singleton_self _),
            rfl, rfl⟩
  | signElsewhere key hns msg =>
      refine ⟨h.text_ne_nil, ?_⟩
      intro pk payload hmem
      rcases List.mem_append.mp hmem with hold | hnew
      · exact h.origin pk payload hold
      · cases List.mem_singleton.mp hnew
        exact .inr ⟨_, msg, hns, rfl⟩
  | _ => exact ⟨h.text_ne_nil, h.origin⟩

theorem SignedHere.exists_sent {c : Clients H} (h : c.SignedHere)
    {pk : PublicKey} {text : Bytes}
    (hsigned : (pk, unionUnique chatNamespace text) ∈ c.signed) :
    ∃ sent ∈ c.composed, sent.key = pk ∧ encodeUtf8 sent.text = text := by
  rcases h.origin _ _ hsigned with ⟨sent, hsent, hkey, heq⟩ | ⟨ns, msg, hns, heq⟩
  · exact ⟨sent, hsent, hkey, (unionUnique_inj heq).2.symm⟩
  · exact absurd (unionUnique_inj heq).1.symm hns

end Clients

/-! ## The two places where lists grow -/

theorem Wrote.mono {log log' : List Composed} {pk : PublicKey} {e : ChatMessage}
    (hsub : log ⊆ log') (h : Wrote log pk e) : Wrote log' pk e := by
  obtain ⟨t, ht, sent, hsent, hrest⟩ := h
  exact ⟨t, ht, sent, hsub hsent, hrest⟩

theorem Authentic.throughJson {log : List Composed} {pk : PublicKey}
    {e : ChatMessage} (h : Authentic H log pk e) : Authentic H log pk e.throughJson := by
  intro p hp hspells
  obtain ⟨t, ht, hsent⟩ :=
    h p ((JsValue.throughJson_eq_str_iff _ _).mp hp) hspells
  exact ⟨t, (JsValue.throughJson_eq_str_iff _ _).mpr ht, hsent⟩

theorem wrote_of_passed {log : List Composed} {pk : PublicKey}
    {e : ChatMessage} {sent : Composed} (hsent : sent ∈ log)
    (hkey : sent.key = pk) (hne : sent.text ≠ [])
    (hpass : passStringToWasm0 H e.text = some (encodeUtf8 sent.text)) :
    Wrote log pk e := by
  cases htext : e.text with
  | str t =>
      rw [htext] at hpass
      exact ⟨t, htext, sent, hsent, hkey, (Option.some.inj hpass).symm⟩
  | _ =>
      simp only [htext, passStringToWasm0] at hpass
      split at hpass
      · exact absurd (Option.some.inj hpass).symm (encodeUtf8_ne_nil hne)
      · cases hpass

namespace Clients

theorem authentic_received {c : Clients H} (hsigned : c.SignedHere)
    {pk : PublicKey} {t : TabId} {payload : JsValue} {me : JsString}
    {e : ChatMessage} (hun : c.Unforged pk (.receive t (.message payload)))
    (h : Tab.incoming H me (.ofJs payload) = some e) :
    Authentic H c.composed pk e := by
  obtain ⟨-, hverify, -, -, rfl⟩ := (Tab.incoming_eq_some_iff me _ e).mp h
  intro p hp hspells
  obtain ⟨p', s, text, pk', sig, hp', hs, hpass, hpk, hsig, -, hcheck⟩ :=
    exists_of_verifySignature hverify
  obtain rfl : p = p' := JsValue.str.inj (hp.symm.trans hp')
  obtain rfl : pk = pk' := hspells.unique hpk
  obtain ⟨sent, hsent, hkey, htext⟩ := hsigned.exists_sent
    (hun p s text sig hp hspells hs hsig hpass hcheck)
  refine wrote_of_passed (H := H) hsent hkey (hsigned.text_ne_nil sent hsent) ?_
  rw [htext]
  exact hpass

theorem authentic_change {pk : PublicKey} {c c' : Clients H} {a : ClientAction}
    (h : AllEntries (fun _ => Authentic H c.composed pk) c)
    (hstep : c.AllInStep) (hsigned : c.SignedHere) (hun : c.Unforged pk a)
    (hchange : Change c a c') :
    AllEntries (fun _ => Authentic H c'.composed pk) c' := by
  have hsub := composed_subset hchange
  refine h.change hstep hchange ?_ (fun _ _ he => he.throughJson) ?_ ?_
  · intro _ e he p hp hspells
    exact (he p hp hspells).mono hsub
  · rintro t input now random msg tab rfl hsend htab
    obtain ⟨tab', identity, htab', hid, hmsg, rfl⟩ := signAndSend_cases hsend
    obtain rfl : tab = tab' := Option.some.inj (htab.symm.trans htab')
    obtain ⟨-, -, -, -, rfl⟩ := Tab.composeMessage_eq_some hmsg
    intro p hp hspells
    obtain rfl : tab.peerId = p := JsValue.str.inj hp
    exact ⟨_, rfl, _, List.mem_append_right _ (List.mem_singleton_self _),
      ((hstep t tab htab).spells_iff hid pk).mp hspells, rfl⟩
  · rintro t tab payload e rfl htab he p hp hspells
    exact (authentic_received hsigned hun he p hp hspells).mono hsub

theorem signedHere_of_reach {ok : Clients H → ClientAction → Prop}
    {c : Clients H} (hc : (system H).Reach ok c) : c.SignedHere :=
  hc.invariant signedHere_initial fun _ _ _ _ h _ hnext =>
    h.change (change_of_step hnext)

theorem authentic_of_reach {pk : PublicKey} {c : Clients H}
    (hc : (system H).Reach (fun c a => c.Unforged pk a) c) :
    AllEntries (fun _ => Authentic H c.composed pk) c :=
  hc.invariant (I := fun c => AllEntries (fun _ => Authentic H c.composed pk) c)
    (allEntries_initial _) fun _ _ _ hreach h hok hnext =>
      authentic_change h (allInStep_of_reach hreach) (signedHere_of_reach hreach)
        hok (change_of_step hnext)

/--
Agreement on texts.  Whatever is delivered, an entry whose peer id decodes to
the key `pk` has the bytes of a text that the holder of `pk` composed.
-/
theorem text_agreement (pk : PublicKey) {c : Clients H}
    (hc : (system H).Reach (fun c a => c.Unforged pk a) c)
    {t : TabId} {tab : Tab H} (htab : c.tabs t = some tab)
    {e : ChatMessage} (he : e ∈ tab.messages) {p : JsString}
    (hp : e.peerId = .str p) (hdecode : H.ed25519.hex.decode (encodeUtf8 p) = .ok pk.bytes) :
    ∃ text, e.text = .str text ∧
      ∃ sent ∈ c.composed, sent.key = pk ∧
        encodeUtf8 sent.text = encodeUtf8 text :=
  (authentic_of_reach hc).listed t tab htab e he p hp hdecode

def genuine (c : Clients H) : ClientAction → Bool
  | .receive _ (.message payload) =>
      match payload.field (js "peerId"),
          passStringToWasm0 H (payload.field (js "text")) with
      | .str p, some text => c.signed.any fun entry =>
          decide (Spells H p entry.1) && entry.2 == unionUnique chatNamespace text
      | _, _ => false
  | _ => true

theorem unforged_of_genuine {c : Clients H} {a : ClientAction}
    (h : c.genuine a = true) (pk : PublicKey) : c.Unforged pk a := by
  cases a with
  | receive t event =>
      cases event with
      | message payload =>
          intro p s text sig hp hspells hs hsig hpass hverify
          simp only [genuine, hp, hpass, List.any_eq_true, Bool.and_eq_true,
            decide_eq_true_eq, beq_iff_eq] at h
          obtain ⟨⟨pk', payload'⟩, hmem, hspells', rfl⟩ := h
          rw [hspells.unique hspells']
          exact hmem
      | _ => trivial
  | _ => trivial

theorem text_agreement_after_reload :
    ∃ c : Clients plainHost,
      (system plainHost).Reach (fun c a => c.Unforged (plainKey 1) a) c ∧
      ∃ tab, c.tabs 2 = some tab ∧ ∃ e ∈ tab.messages,
        e.peerId = .str (plainPeer 1) ∧
        ∃ text, e.text = .str text ∧
          ∃ sent ∈ c.composed, sent.key = plainKey 1 ∧
            encodeUtf8 sent.text = encodeUtf8 text := by
  obtain ⟨c, hc, hcheck⟩ := System.exists_reach_of_exec
    (system plainHost) (fun c a => c.Unforged (plainKey 1) a)
    (genuine)
    (
      [.load 0, .handleInitialize 0 (js "P") (plainKey 1),
        .load 1, .handleInitialize 1 (js "C") (plainKey 2),
        .signAndSend 0 (js "hi") 7 (js "x"),
        .receive 1 (.message (plainMessage 1 (js "other") (js "hi")).toJs),
        .persist 1, .load 1])
    (fun c => (c.tabs 2).any fun tab =>
      tab.messages.any fun e => e.peerId.strictEq (.str (plainPeer 1)))
    (fun _ _ h => unforged_of_genuine h _) (by decide +kernel)
  simp only [Option.any_eq_true, List.any_eq_true, JsValue.strictEq_str_iff]
    at hcheck
  obtain ⟨tab, htab, e, he, hp⟩ := hcheck
  exact ⟨c, hc, tab, htab, e, he, hp,
    text_agreement (plainKey 1) hc htab he hp (by decide +kernel)⟩

end Clients

end CommonChat.Frontend
