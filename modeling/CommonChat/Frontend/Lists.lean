import CommonChat.Frontend.Runs

/-!
# Lists in memory and in storage

The rule by which properties of message lists are proved.  A list is in a tab
or under a storage key, by peer id, and moves between the two unchecked.
-/

namespace CommonChat.Frontend.Clients

open CommonChat.Foundation
open CommonChat.Core
open CommonChat.Relay

variable {H : Host}

/-! ## Properties of every list -/

structure AllLists (P : JsString → List ChatMessage → Prop) (c : Clients H) :
    Prop where
  listed : ∀ t tab, c.tabs t = some tab → P tab.peerId tab.messages
  stored : ∀ b me list, (c.storage b).messages (storageKey me) = some list →
    P me list

theorem AllLists.mono {P Q : JsString → List ChatMessage → Prop}
    {c : Clients H} (h : AllLists P c) (himp : ∀ me list, P me list → Q me list) :
    AllLists Q c where
  listed t tab htab := himp _ _ (h.listed t tab htab)
  stored b me list hlist := himp _ _ (h.stored b me list hlist)

theorem AllLists.setTab {P : JsString → List ChatMessage → Prop}
    {c : Clients H} (h : AllLists P c) (t : TabId) (tab : Tab H)
    (htab : P tab.peerId tab.messages) : AllLists P (c.setTab t tab) where
  listed u tab' hu := by
    rcases setTab_cases hu with ⟨-, rfl⟩ | ⟨-, hold⟩
    · exact htab
    · exact h.listed u tab' hold
  stored := h.stored

theorem AllLists.setStorage {P : JsString → List ChatMessage → Prop}
    {c : Clients H} (h : AllLists P c) {b : BrowserId} {storage : LocalStorage}
    (hstorage : ∀ me list, storage.messages (storageKey me) = some list →
      P me list) : AllLists P (c.setStorage b storage) where
  listed := h.listed
  stored d me list hlist := by
    by_cases hdb : d = b
    · subst hdb
      rw [setStorage_self] at hlist
      exact hstorage me list hlist
    · rw [setStorage_other c storage hdb] at hlist
      exact h.stored d me list hlist

theorem storageKey_injective : Function.Injective storageKey := by
  intro p q h
  exact List.append_cancel_left h

private theorem loadEffect_list {P : JsString → List ChatMessage → Prop}
    (tab : Tab H) {storage : LocalStorage} (hempty : tab.messages = [])
    (hnil : ∀ me, P me [])
    (hstored : ∀ me list, storage.messages (storageKey me) = some list →
      P me list) :
    P (tab.loadEffect storage).peerId (tab.loadEffect storage).messages := by
  unfold Tab.loadEffect
  split
  · rw [hempty]
    exact hnil _
  split
  · rw [hempty]
    exact hnil _
  · rename_i parsed hparsed
    split
    · exact hstored _ _ hparsed
    · rw [hempty]
      exact hnil _

/--
The rule for properties of lists.  Lists grow in two places, by a local send
and by an accepted payload; everything else moves lists between tabs and
storage, where they are cut and pass through JSON.
-/
theorem AllLists.change {P Q : JsString → List ChatMessage → Prop}
    {c c' : Clients H} {a : ClientAction} (h : AllLists P c)
    (hstep : c.AllInStep) (hchange : Change c a c') (hnil : ∀ me, Q me [])
    (hmono : ∀ me list, P me list → Q me list)
    (hstore : ∀ me list, Q me list → Q me (Tab.toStore list))
    (hsend : ∀ t input now random msg tab, a = .signAndSend t input now random →
      c.signAndSend t input now random = some (c', msg) →
      c.tabs t = some tab → Q tab.peerId (tab.messages ++ [msg]))
    (hreceive : ∀ t tab payload e, a = .receive t (.message payload) →
      c.tabs t = some tab → Tab.incoming H tab.peerId (.ofJs payload) = some e →
      (∀ m ∈ tab.messages, m.id.strictEq e.id = false) →
      Q tab.peerId (tab.messages ++ [e])) :
    AllLists Q c' := by
  replace h := h.mono hmono
  cases hchange with
  | load b =>
      have hempty := loadStored_messages (H := H) b (c.storage b)
      have hset := h.setTab c.nextTab _
        (loadEffect_list _ hempty hnil (h.stored b))
      exact ⟨hset.listed, hset.stored⟩
  | @handleInitialize t tab storage tab' name random htab hnew hinit =>
      cases hinit
      have hempty : tab.messages = [] := (hstep t tab htab).messages_eq_nil hnew
      have hstored : AllLists Q (c.setStorage tab.browser
          (tab.initializeWithDisplayName (c.storage tab.browser) (trim name)
            random).1) :=
        h.setStorage (h.stored tab.browser)
      have hset := hstored.setTab t _
        (loadEffect_list (tab.initializeWithDisplayName
          (c.storage tab.browser) (trim name) random).2 hempty hnil
          (h.stored tab.browser))
      exact ⟨hset.listed, hset.stored⟩
  | @saveDisplayName t tab storage tab' name htab hname hupdate =>
      cases hupdate
      have hstored : AllLists Q (c.setStorage tab.browser
          (tab.updateDisplayName (c.storage tab.browser) (trim name)).1) :=
        h.setStorage (h.stored tab.browser)
      exact hstored.setTab t
        (tab.updateDisplayName (c.storage tab.browser) (trim name)).2
        (h.listed t tab htab)
  | @openPublicRoom t tab htab roomId => exact h.setTab t _ (h.listed t tab htab)
  | @openDirectWith t tab htab row peer hpeer =>
      exact h.setTab t _ (h.listed t tab htab)
  | @signAndSend t input now random c₁ msg hc =>
      obtain ⟨tab, identity, htab, -, -, heq⟩ := signAndSend_cases hc
      have hset := h.setTab t { tab with messages := tab.messages ++ [msg] }
        (hsend t input now random msg tab rfl hc htab)
      rw [heq]
      exact ⟨hset.listed, hset.stored⟩
  | @receive t tab htab hwants event =>
      refine h.setTab t _ ?_
      rw [(onRelayEvent_identity tab event).2.1]
      rcases onRelayEvent_messages tab event with
        hsame | ⟨payload, e, rfl, hin, hnew, happend⟩
      · rw [hsame]
        exact h.listed t tab htab
      · rw [happend]
        exact hreceive t tab payload e rfl htab hin hnew
  | @persist t tab htab =>
      refine h.setStorage ?_
      intro me list hlist
      unfold Tab.persistEffect at hlist
      split at hlist
      · exact h.stored tab.browser me list hlist
      · simp only at hlist
        by_cases hme : me = tab.peerId
        · subst hme
          rw [Function.update_self] at hlist
          obtain rfl := Option.some.inj hlist
          exact hstore _ _ (h.listed t tab htab)
        · rw [Function.update_of_ne (fun hkey =>
            hme (storageKey_injective hkey))] at hlist
          exact h.stored tab.browser me list hlist
  | signElsewhere key hns msg => exact ⟨h.listed, h.stored⟩

theorem allLists_initial {P : JsString → List ChatMessage → Prop} :
    AllLists P (initial H) where
  listed t tab htab := by cases htab
  stored b me list hlist := by cases hlist

def AllEntries (P : JsString → ChatMessage → Prop) (c : Clients H) : Prop :=
  AllLists (fun me list => ∀ e ∈ list, P me e) c

theorem allEntries_initial (P : JsString → ChatMessage → Prop) :
    AllEntries P (initial H) :=
  allLists_initial

theorem AllEntries.change {P Q : JsString → ChatMessage → Prop}
    {c c' : Clients H} {a : ClientAction} (h : AllEntries P c)
    (hstep : c.AllInStep) (hchange : Change c a c')
    (hmono : ∀ me e, P me e → Q me e)
    (hjson : ∀ me e, Q me e → Q me e.throughJson)
    (hsend : ∀ t input now random msg tab, a = .signAndSend t input now random →
      c.signAndSend t input now random = some (c', msg) →
      c.tabs t = some tab → Q tab.peerId msg)
    (hreceive : ∀ t tab payload e, a = .receive t (.message payload) →
      c.tabs t = some tab →
      Tab.incoming H tab.peerId (.ofJs payload) = some e → Q tab.peerId e) :
    AllEntries Q c' := by
  have happend : ∀ t tab e, c.tabs t = some tab → Q tab.peerId e →
      ∀ e' ∈ tab.messages ++ [e], Q tab.peerId e' := by
    intro t tab e htab hnew e' he'
    rcases List.mem_append.mp he' with hold | hlast
    · exact hmono _ _ (h.listed t tab htab e' hold)
    · rw [List.mem_singleton.mp hlast]
      exact hnew
  refine AllLists.change h hstep hchange (fun _ => by simp)
    (fun me list hlist e he => hmono me e (hlist e he)) ?_ ?_ ?_
  · intro me list hlist e he
    obtain ⟨e', he', rfl⟩ := List.mem_map.mp he
    exact hjson me e' (hlist e' (List.mem_of_mem_drop he'))
  · intro t input now random msg tab ha hc htab
    exact happend t tab msg htab (hsend t input now random msg tab ha hc htab)
  · intro t tab payload e ha htab hin _
    exact happend t tab e htab (hreceive t tab payload e ha htab hin)

end CommonChat.Frontend.Clients
