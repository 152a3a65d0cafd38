import CommonChat.Frontend.Lists

/-!
# Stored message lists

Every tab of an identity writes its whole list over the stored one.  What a tab
has persisted stays stored as long as the tabs that write after it list it too;
the list keeps the last 500 entries, so an entry may go once 500 others follow
it.  A tab that does not list a stored entry erases it.

The runs here are recorded: the log holds what each persist effect wrote.
-/

namespace CommonChat.Frontend.Clients

open CommonChat.Foundation
open CommonChat.Core
open CommonChat.Relay

variable {H : Host}

structure Written where
  browser : BrowserId
  peerId : JsString
  list : List ChatMessage

def written (c : Clients H) : ClientAction → List Written
  | .persist t =>
      match c.tabs t with
      | some tab =>
          if tab.peerId = [] ∨ tab.messages.length = 0 then []
          else [⟨tab.browser, tab.peerId, tab.messages⟩]
      | none => []
  | _ => []

def recorded (H : Host) : System (Clients H × List Written) ClientAction :=
  (system H).record written

def storedList (c : Clients H) (b : BrowserId) (me : JsString) : List ChatMessage :=
  ((c.storage b).messages (storageKey me)).getD []

/-- In the list, at least 500 entries follow one that is stored as `e`. -/
def Outlived (list : List ChatMessage) (e : ChatMessage) : Prop :=
  ∃ before m after, list = before ++ m :: after ∧ m.throughJson = e ∧
    500 ≤ after.length

def OutlivedIn (log : List Written) (b : BrowserId) (me : JsString)
    (e : ChatMessage) : Prop :=
  ∃ w ∈ log, w.browser = b ∧ w.peerId = me ∧ Outlived w.list e

/--
A tab that persists lists what is stored under its key, up to entries that 500
others have followed already.
-/
def PersistsAll (s : Clients H × List Written) : ClientAction → Prop
  | .persist t => ∀ tab, s.1.tabs t = some tab → tab.messages ≠ [] →
      ∀ e ∈ s.1.storedList tab.browser tab.peerId,
        e ∈ tab.messages.map ChatMessage.throughJson ∨
          OutlivedIn s.2 tab.browser tab.peerId e
  | _ => True

theorem mem_toStore_or_outlived {messages : List ChatMessage} {e : ChatMessage}
    (h : e ∈ messages.map ChatMessage.throughJson) :
    e ∈ Tab.toStore messages ∨ Outlived messages e := by
  obtain ⟨m, hm, rfl⟩ := List.mem_map.mp h
  obtain ⟨before, after, rfl⟩ := List.append_of_mem hm
  by_cases hmany : 500 ≤ after.length
  · exact .inr ⟨before, m, after, rfl, rfl, hmany⟩
  · left
    refine List.mem_map.mpr ⟨m, ?_, rfl⟩
    have hcut : (before ++ m :: after).length - 500 ≤ before.length := by
      simp only [List.length_append, List.length_cons]
      omega
    rw [List.drop_append_of_le_length hcut]
    exact List.mem_append_right _ List.mem_cons_self

theorem storedList_setStorage {c : Clients H} {b : BrowserId}
    {storage : LocalStorage} (h : storage.messages = (c.storage b).messages)
    (d : BrowserId) (me : JsString) :
    (c.setStorage b storage).storedList d me = c.storedList d me := by
  unfold storedList
  by_cases hd : d = b
  · subst hd
    rw [setStorage_self, h]
  · rw [setStorage_other c storage hd]

theorem storedList_of_change {c c' : Clients H} {a : ClientAction}
    (hchange : Change c a c') (hpersist : ∀ t, a ≠ .persist t) (b : BrowserId)
    (me : JsString) : c'.storedList b me = c.storedList b me := by
  cases hchange with
  | @handleInitialize t tab storage tab₁ name random htab hnew hinit =>
      have hkeep : storage.messages = (c.storage tab.browser).messages := by
        cases hinit
        rfl
      exact storedList_setStorage hkeep b me
  | @saveDisplayName t tab storage tab₁ name htab hname hupdate =>
      have hkeep : storage.messages = (c.storage tab.browser).messages := by
        cases hupdate
        rfl
      exact storedList_setStorage hkeep b me
  | signAndSend hsend =>
      obtain ⟨tab, identity, -, -, -, rfl⟩ := signAndSend_cases hsend
      rfl
  | @persist t tab htab => exact absurd rfl (hpersist t)
  | _ => rfl

theorem storedList_persist {c : Clients H} {tab : Tab H}
    (hwrite : ¬ (tab.peerId = [] ∨ tab.messages.length = 0)) (b : BrowserId)
    (me : JsString) :
    (c.setStorage tab.browser (tab.persistEffect (c.storage tab.browser))).storedList
        b me =
      if b = tab.browser ∧ me = tab.peerId then Tab.toStore tab.messages
      else c.storedList b me := by
  unfold storedList
  by_cases hb : b = tab.browser
  · subst hb
    rw [setStorage_self, Tab.persistEffect, if_neg hwrite]
    by_cases hme : me = tab.peerId
    · simp [hme]
    · have hkey : storageKey me ≠ storageKey tab.peerId := fun h =>
        hme (storageKey_injective h)
      simp [hme, hkey]
  · rw [setStorage_other c _ hb, if_neg (fun h => hb h.1)]

def HistoryKept (s : Clients H × List Written) : Prop :=
  ∀ w ∈ s.2, ∀ e ∈ Tab.toStore w.list,
    e ∈ s.1.storedList w.browser w.peerId ∨ OutlivedIn s.2 w.browser w.peerId e

theorem OutlivedIn.append {log : List Written} {b : BrowserId} {me : JsString}
    {e : ChatMessage} (h : OutlivedIn log b me e) (more : List Written) :
    OutlivedIn (log ++ more) b me e := by
  obtain ⟨w, hw, hrest⟩ := h
  exact ⟨w, List.mem_append_left _ hw, hrest⟩

theorem HistoryKept.persist {c : Clients H} {log : List Written}
    (h : HistoryKept (c, log)) {t : TabId} {tab : Tab H}
    (htab : c.tabs t = some tab) (hok : PersistsAll (c, log) (.persist t))
    (hwrite : ¬ (tab.peerId = [] ∨ tab.messages.length = 0)) :
    HistoryKept (c.setStorage tab.browser (tab.persistEffect (c.storage tab.browser)),
      log ++ [⟨tab.browser, tab.peerId, tab.messages⟩]) := by
  have hne : tab.messages ≠ [] := fun hnil => hwrite (.inr (by rw [hnil]; rfl))
  intro w hw e he
  rw [storedList_persist hwrite]
  rcases List.mem_append.mp hw with hold | hnew
  · rcases h w hold e he with hstored | houtlived
    · by_cases hsame : w.browser = tab.browser ∧ w.peerId = tab.peerId
      · rw [if_pos hsame]
        rw [hsame.1, hsame.2] at hstored ⊢
        rcases hok tab htab hne e hstored with hlisted | houtlived
        · refine (mem_toStore_or_outlived hlisted).imp_right ?_
          exact fun houtlived => ⟨_, List.mem_append_right _
            (List.mem_singleton_self _), rfl, rfl, houtlived⟩
        · exact .inr (houtlived.append _)
      · rw [if_neg hsame]
        exact .inl hstored
    · exact .inr (houtlived.append _)
  · rw [List.mem_singleton.mp hnew] at he ⊢
    rw [if_pos ⟨rfl, rfl⟩]
    exact .inl he

theorem HistoryKept.of_same {c c' : Clients H} {log : List Written}
    (h : HistoryKept (c, log))
    (hsame : ∀ b me, c'.storedList b me = c.storedList b me) :
    HistoryKept (c', log) := by
  intro w hw e he
  rw [hsame]
  exact h w hw e he

/--
As long as the tabs that persist list what is stored under their key, nothing
that was persisted is lost before 500 later entries are persisted.
-/
theorem history_kept_of_reach {s : Clients H × List Written}
    (hs : (recorded H).Reach PersistsAll s) :
    ∀ w ∈ s.2, ∀ e ∈ Tab.toStore w.list,
      e ∈ s.1.storedList w.browser w.peerId ∨
        OutlivedIn s.2 w.browser w.peerId e := by
  refine hs.invariant (I := HistoryKept) (fun w hw => absurd hw List.not_mem_nil) ?_
  rintro ⟨c, log⟩ a ⟨c', log'⟩ - h hok hnext
  obtain ⟨c₁, hstep, heq⟩ := Option.map_eq_some_iff.mp hnext
  cases heq
  have hchange : Change c a c' := change_of_step hstep
  by_cases hpersist : ∃ t, a = .persist t
  · obtain ⟨t, rfl⟩ := hpersist
    cases hchange with
    | @persist _ tab htab =>
        by_cases hwrite : tab.peerId = [] ∨ tab.messages.length = 0
        · have hskip : tab.persistEffect (c.storage tab.browser) =
              c.storage tab.browser := if_pos hwrite
          have hlog : c.written (.persist t) = [] := by
            simp only [written, htab, if_pos hwrite]
          simp only [hlog, List.append_nil, hskip]
          exact h.of_same (storedList_setStorage rfl)
        · have hlog : c.written (.persist t) =
              [⟨tab.browser, tab.peerId, tab.messages⟩] := by
            simp only [written, htab, if_neg hwrite]
          simp only [hlog]
          exact h.persist htab hok hwrite
  · have hnot : ∀ t, a ≠ .persist t := fun t ha => hpersist ⟨t, ha⟩
    have hnone : c.written a = [] := by
      cases a with
      | persist t => exact absurd rfl (hnot t)
      | _ => rfl
    simp only [hnone, List.append_nil]
    exact h.of_same (storedList_of_change hchange hnot)

theorem not_outlived_of_length {list : List ChatMessage} (h : list.length < 500)
    (e : ChatMessage) : ¬ Outlived list e := by
  rintro ⟨before, m, after, rfl, -, hlen⟩
  simp only [List.length_append, List.length_cons] at h
  omega

def listsStored (s : Clients H × List Written) : ClientAction → Bool
  | .persist t => (s.1.tabs t).all fun tab =>
      (s.1.storedList tab.browser tab.peerId).all fun e =>
        tab.messages.any fun m => m.throughJson.sameFields e
  | _ => true

theorem persistsAll_of_listsStored (s : Clients H × List Written) (a : ClientAction)
    (h : listsStored s a = true) : PersistsAll s a := by
  cases a with
  | persist t =>
      intro tab htab _ e he
      simp only [listsStored, htab, Option.all_some, List.all_eq_true, List.any_eq_true] at h
      obtain ⟨m, hm, hsame⟩ := h e he
      exact .inl (List.mem_map.mpr ⟨m, hm, ChatMessage.eq_of_sameFields hsame⟩)
  | _ => trivial

theorem history_kept_after_two_writes :
    ∃ s : Clients plainHost × List Written,
      (recorded plainHost).Reach PersistsAll s ∧
        (s.2.map fun w => w.list.length) = [1, 2] ∧ (s.1.tabs 1).isSome ∧
        ∀ w ∈ s.2, ∀ e ∈ Tab.toStore w.list,
          e ∈ s.1.storedList w.browser w.peerId ∨
            OutlivedIn s.2 w.browser w.peerId e := by
  obtain ⟨s, hs, hcheck⟩ := System.exists_reach_of_exec
    (recorded plainHost) PersistsAll listsStored
    [.load 0, .handleInitialize 0 (js "A") (plainKey 1),
      .signAndSend 0 (js "x") 7 (js "r"), .persist 0,
      .load 0, .signAndSend 1 (js "y") 8 (js "s"), .persist 1]
    (fun s => (s.2.map fun w => w.list.length) = [1, 2] && (s.1.tabs 1).isSome)
    persistsAll_of_listsStored (by decide +kernel)
  simp only [Bool.and_eq_true, decide_eq_true_eq] at hcheck
  exact ⟨s, hs, hcheck.1, hcheck.2, history_kept_of_reach hs⟩

/--
A private message that one tab has sent and persisted is gone once the other tab,
which was never shown it, persists a message of its own.
-/
theorem history_lost_of_other_tab :
    ¬ ∀ (H : Host) (s : Clients H × List Written),
      (recorded H).Reach (fun _ _ => True) s →
      ∀ w ∈ s.2, ∀ e ∈ Tab.toStore w.list,
        e ∈ s.1.storedList w.browser w.peerId ∨
          OutlivedIn s.2 w.browser w.peerId e := by
  intro hall
  obtain ⟨s, hs, hcheck⟩ := System.exists_reach_of_exec
    (recorded plainHost) (fun _ _ => True) (fun _ _ => true)
    ([.load 0, .handleInitialize 0 (js "A") (plainKey 1), .load 0,
      .receive 1 (.userOnline (Server.peerObject (.str (plainPeer 2)) (.str (js "C")))),
      .openDirectWith 1 0, .signAndSend 1 (js "x") 7 (js "r"), .persist 1,
      .signAndSend 0 (js "y") 8 (js "s"), .persist 0])
    (fun s => (s.2.all fun w => w.list.length < 500) &&
      s.2.any fun w => (Tab.toStore w.list).any fun e =>
        e.text.strictEq (.str (js "x")) &&
        (s.1.storedList w.browser w.peerId).all fun e' =>
          !e'.text.strictEq (.str (js "x")))
    (fun _ _ _ => trivial) (by decide +kernel)
  simp only [Bool.and_eq_true, List.all_eq_true, List.any_eq_true, decide_eq_true_eq,
    JsValue.strictEq_str_iff, Bool.not_eq_true', JsValue.strictEq_str_false_iff]
    at hcheck
  obtain ⟨hshort, w, hw, e, he, htext, hgone⟩ := hcheck
  rcases hall plainHost s hs w hw e he with hstored | ⟨w', hw', -, -, houtlived⟩
  · exact hgone e hstored htext
  · exact not_outlived_of_length (hshort w' hw') e houtlived

end CommonChat.Frontend.Clients
