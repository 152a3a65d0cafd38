import CommonChat.Frontend.Message

/-!
# Rows of the sidebar

How many rows the list of direct-message peers has for a key: one for every
other peer that is online or takes part in a listed conversation, and none for
anybody else.  Both loops of `getDirectMessagesPeerList` obey one law, and the
sort keeps the rows.
-/

namespace CommonChat.Frontend

open CommonChat.Foundation
open CommonChat.Relay

def rows (list : List ListedPeer) (key : JsString) : Nat :=
  list.countP fun p => p.pubKey.strictEq (.str key)

theorem rows_pos_iff (list : List ListedPeer) (key : JsString) :
    0 < rows list key ↔
      (list.any fun p => p.pubKey.strictEq (.str key)) = true := by
  rw [rows, List.countP_pos_iff, List.any_eq_true]

theorem rows_sortOnlineFirst (list : List ListedPeer) (key : JsString) :
    rows (sortOnlineFirst list) key = rows list key :=
  (List.perm_insertionSort _ list).countP_eq _

theorem strictEq_of_strictEq_str {a b : JsValue} {key : JsString}
    (h : a.strictEq b = true) :
    a.strictEq (.str key) = b.strictEq (.str key) := by
  cases a <;> cases b <;> simp_all [JsValue.strictEq]

theorem rows_setListed (byKey : List ListedPeer) (p : ListedPeer)
    (key : JsString) :
    rows (setListed byKey p) key =
      if p.pubKey.strictEq (.str key) then max 1 (rows byKey key)
      else rows byKey key := by
  unfold setListed
  split
  · rename_i hknown
    have hsame : rows (byKey.map fun q =>
        if q.pubKey.strictEq p.pubKey then p else q) key = rows byKey key := by
      unfold rows
      rw [List.countP_map]
      refine List.countP_congr ?_
      intro q _
      simp only [Function.comp_apply]
      split
      · rename_i hq
        rw [strictEq_of_strictEq_str hq]
      · rfl
    rw [hsame]
    split
    · rename_i hp
      have hpos : 0 < rows byKey key := by
        rw [rows_pos_iff]
        obtain ⟨q, hq, hkey⟩ := List.any_eq_true.mp hknown
        exact List.any_eq_true.mpr ⟨q, hq, (strictEq_of_strictEq_str hkey).trans hp⟩
      omega
    · rfl
  · rename_i hnew
    have happend : rows (byKey ++ [p]) key =
        rows byKey key + if p.pubKey.strictEq (.str key) then 1 else 0 := by
      simp only [rows, List.countP_append, List.countP_singleton]
    rw [happend]
    split
    · rename_i hp
      have hzero : rows byKey key = 0 := by
        by_contra hne
        obtain ⟨q, hq, hkey⟩ := List.any_eq_true.mp
          ((rows_pos_iff byKey key).mp (Nat.pos_of_ne_zero hne))
        refine hnew (List.any_eq_true.mpr ⟨q, hq, ?_⟩)
        rw [JsValue.strictEq_str_iff] at hp hkey
        simp [hp, hkey]
      omega
    · rfl

def ListsKeys {β : Type} (keyOf : β → JsValue) (me : JsString)
    (step : List ListedPeer → β → List ListedPeer) : Prop :=
  ∀ byKey item key, rows (step byKey item) key =
    if (keyOf item).strictEq (.str key) && decide (key ≠ me)
    then max 1 (rows byKey key) else rows byKey key

theorem ListsKeys.rows_foldl {β : Type} {keyOf : β → JsValue} {me : JsString}
    {step : List ListedPeer → β → List ListedPeer} (h : ListsKeys keyOf me step)
    (items : List β) (start : List ListedPeer) (key : JsString) :
    rows (items.foldl step start) key =
      if (items.any fun item => (keyOf item).strictEq (.str key)) && decide (key ≠ me)
      then max 1 (rows start key) else rows start key := by
  induction items generalizing start with
  | nil => rfl
  | cons item rest ih =>
      rw [List.foldl_cons, ih, h start item key, List.any_cons]
      by_cases hme : key = me
      · simp [hme]
      · cases (keyOf item).strictEq (.str key) <;>
          cases (rest.any fun item => (keyOf item).strictEq (.str key)) <;>
          simp [hme]

private theorem not_listed_of_own {value : JsValue} {me : JsString}
    (hme : value.strictEq (.str me) = true) (key : JsString) :
    ¬ (value.strictEq (.str key) && decide (key ≠ me)) = true := by
  rw [JsValue.strictEq_str_iff] at hme
  intro h
  simp only [hme, JsValue.str_strictEq_str, Bool.and_eq_true, beq_iff_eq,
    decide_eq_true_eq] at h
  exact h.2 h.1.symm

theorem listsKeys_online (me : JsString) :
    ListsKeys Peer.pubKey me fun byKey p =>
      if p.pubKey.strictEq (.str me) then byKey
      else setListed byKey { p with online := true } := by
  intro byKey p key
  simp only
  split
  · rename_i hme
    rw [if_neg (not_listed_of_own hme key)]
  · rename_i hme
    rw [rows_setListed]
    by_cases hkey : p.pubKey.strictEq (.str key) = true
    · have hne : key ≠ me := by
        rintro rfl
        exact hme hkey
      simp [hkey, hne]
    · simp [hkey]

theorem listsKeys_previous (me : JsString) :
    ListsKeys (fun p : ListedPeer => p.pubKey) me fun byKey p =>
      if p.pubKey.strictEq (.str me) then byKey
      else if byKey.any fun q => q.pubKey.strictEq p.pubKey then byKey
      else setListed byKey { p with online := false } := by
  intro byKey p key
  simp only
  split
  · rename_i hme
    rw [if_neg (not_listed_of_own hme key)]
  rename_i hme
  have hne : p.pubKey.strictEq (.str key) = true → key ≠ me := by
    rintro hkey rfl
    exact hme hkey
  split
  · rename_i hknown
    by_cases hkey : p.pubKey.strictEq (.str key) = true
    · have hpos : 0 < rows byKey key := by
        rw [rows_pos_iff]
        obtain ⟨q, hq, hsame⟩ := List.any_eq_true.mp hknown
        exact List.any_eq_true.mpr ⟨q, hq, (strictEq_of_strictEq_str hsame).trans hkey⟩
      simp only [hkey, hne hkey, ne_eq, not_false_eq_true, decide_true, Bool.and_true,
        if_true]
      omega
    · simp [hkey]
  · rw [rows_setListed]
    by_cases hkey : p.pubKey.strictEq (.str key) = true
    · simp [hkey, hne hkey]
    · simp [hkey]

/-! ## Conversation partners -/

theorem any_previousPeersFrom_iff (names : List (JsValue × JsValue))
    (me : JsString) (onlinePeers : List Peer) (seen : List JsValue)
    (messages : List ChatMessage) (key : JsString) :
    (∃ p ∈ previousPeersFrom names me onlinePeers seen messages,
      p.pubKey = .str key) ↔
      isOtherPeer me (.str key) = true ∧ JsValue.str key ∉ seen ∧
        ∃ m ∈ messages, conversationPartner m = .str key := by
  induction messages generalizing seen with
  | nil => simp [previousPeersFrom]
  | cons m rest ih =>
      rw [previousPeersFrom]
      simp only
      split
      · rename_i hnew
        simp only [Bool.and_eq_true, Bool.not_eq_true', List.any_eq_false] at hnew
        obtain ⟨hother, hunseen⟩ := hnew
        rw [List.exists_mem_cons_iff, List.exists_mem_cons_iff, ih]
        by_cases hkey : conversationPartner m = .str key
        · have hnot : JsValue.str key ∉ seen := by
            intro hmem
            exact hunseen _ hmem (by rw [hkey]; simp)
          rw [hkey] at hother
          simp [hkey, hnot, hother]
        · simp [hkey, Ne.symm hkey]
      · rename_i hskip
        rw [List.exists_mem_cons_iff, ih]
        constructor
        · rintro ⟨hother, hunseen, hrest⟩
          exact ⟨hother, hunseen, .inr hrest⟩
        · rintro ⟨hother, hunseen, hkey | hrest⟩
          · refine absurd ?_ hskip
            simp only [hkey, hother, Bool.true_and, Bool.not_eq_true',
              List.any_eq_false, JsValue.strictEq_str_iff]
            rintro x hx rfl
            exact hunseen hx
          · exact ⟨hother, hunseen, hrest⟩

/-- The rows of the sidebar: one for each other peer that is online or spoken with. -/
theorem rows_directMessagesPeerList (messages : List ChatMessage)
    (onlinePeers : List Peer) (me key : JsString) :
    rows (getDirectMessagesPeerList onlinePeers
        (getPreviousPeers messages me onlinePeers) me) key =
      if ((onlinePeers.any fun p => p.pubKey.strictEq (.str key)) ||
          (key ≠ [] && messages.any fun m =>
            (conversationPartner m).strictEq (.str key))) && decide (key ≠ me)
      then 1 else 0 := by
  have hprevious : ((getPreviousPeers messages me onlinePeers).any fun p =>
      p.pubKey.strictEq (.str key)) =
      (isOtherPeer me (.str key) && messages.any fun m =>
        (conversationPartner m).strictEq (.str key)) := by
    rw [Bool.eq_iff_iff]
    simp only [List.any_eq_true, Bool.and_eq_true, JsValue.strictEq_str_iff,
      getPreviousPeers, sortOnlineFirst, List.mem_insertionSort]
    rw [any_previousPeersFrom_iff]
    simp
  unfold getDirectMessagesPeerList
  simp only [rows_sortOnlineFirst]
  rw [(listsKeys_previous me).rows_foldl, (listsKeys_online me).rows_foldl, hprevious]
  have hempty : rows [] key = 0 := rfl
  rw [hempty, isOtherPeer]
  by_cases hme : key = me
  · simp [hme]
  · by_cases hnil : key = []
    · cases (onlinePeers.any fun p => p.pubKey.strictEq (.str key)) <;>
        simp [hnil, JsValue.truthy]
    · cases (onlinePeers.any fun p => p.pubKey.strictEq (.str key)) <;>
        cases (messages.any fun m => (conversationPartner m).strictEq (.str key)) <;>
        simp [hme, hnil, JsValue.truthy]

end CommonChat.Frontend
