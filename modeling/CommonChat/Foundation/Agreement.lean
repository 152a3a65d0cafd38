import CommonChat.Foundation.Broker
import Mathlib.Logic.Relation

/-!
# A common order

A broker takes one item after the other.  The order in which it takes them is
one order for all nodes: each node sees the items of the other nodes in it, over
all channels that the node and the others have had.  The order extends what
precedes what: an item sent later over a channel, or issued by a node that has
seen the other one, never comes first.
-/

namespace CommonChat.Foundation

/-! ## One item before another -/

section Before

variable {K : Type*} {l : List K} {k k' k'' : K}

def Before (l : List K) (k k' : K) : Prop := [k, k'].Sublist l

theorem Before.mem_left (h : Before l k k') : k ∈ l := h.subset (by simp)

theorem Before.mem_right (h : Before l k k') : k' ∈ l := h.subset (by simp)

theorem before_cons_iff {x : K} :
    Before (x :: l) k k' ↔ (k = x ∧ k' ∈ l) ∨ Before l k k' := by
  unfold Before
  constructor
  · intro h
    cases h with
    | cons _ h => exact .inr h
    | cons_cons _ h => exact .inl ⟨rfl, List.singleton_sublist.mp h⟩
  · rintro (⟨rfl, hk'⟩ | h)
    · exact (List.singleton_sublist.mpr hk').cons_cons _
    · exact h.cons _

theorem before_concat (h : k ∈ l) (k' : K) : Before (l ++ [k']) k k' :=
  (List.singleton_sublist.mpr h).append (List.Sublist.refl _)

theorem Before.append (h : Before l k k') (l' : List K) : Before (l ++ l') k k' :=
  List.Sublist.trans h (List.sublist_append_left _ _)

theorem Before.trans (h : Before l k k') (h' : Before l k' k'') (hl : l.Nodup) :
    Before l k k'' := by
  induction l with
  | nil => cases h.mem_left
  | cons x l ih =>
      obtain ⟨hx, hl⟩ := List.nodup_cons.mp hl
      rw [before_cons_iff] at h h' ⊢
      rcases h with ⟨rfl, hk'⟩ | h
      · left
        rcases h' with ⟨rfl, -⟩ | h'
        · exact absurd hk' hx
        · exact ⟨rfl, h'.mem_right⟩
      · right
        rcases h' with ⟨rfl, -⟩ | h'
        · exact absurd h.mem_right hx
        · exact ih h h' hl

theorem Before.asymm (h : Before l k k') (hl : l.Nodup) : ¬ Before l k' k := by
  intro h'
  have hsame : Before l k k := h.trans h' hl
  exact absurd (hsame.nodup hl) (by simp)

theorem Before.mem_takeWhile [DecidableEq K] (h : Before l k k') (hl : l.Nodup) :
    k ∈ l.takeWhile (· ≠ k') := by
  induction l with
  | nil => cases h.mem_left
  | cons x l ih =>
      obtain ⟨hx, hl⟩ := List.nodup_cons.mp hl
      rw [before_cons_iff] at h
      have hne : x ≠ k' := by
        rintro rfl
        rcases h with ⟨-, hmem⟩ | h
        · exact hx hmem
        · exact hx h.mem_right
      rw [List.takeWhile_cons_of_pos (by simpa using hne)]
      rcases h with ⟨rfl, -⟩ | h
      · exact List.mem_cons_self
      · exact List.mem_cons_of_mem _ (ih h hl)

theorem takeWhile_append_of_mem [DecidableEq K] (h : k' ∈ l) (l' : List K) :
    (l ++ l').takeWhile (· ≠ k') = l.takeWhile (· ≠ k') := by
  induction l with
  | nil => cases h
  | cons x l ih =>
      rw [List.cons_append, List.takeWhile_cons, List.takeWhile_cons]
      split
      · rename_i hx
        rcases List.mem_cons.mp h with rfl | h
        · simp at hx
        · rw [ih h]
      · rfl

theorem sublist_of_insert {before after : List K} {x : K}
    (h : l.Sublist (before ++ [x] ++ after)) (hx : x ∉ l) :
    l.Sublist (before ++ after) := by
  rw [List.append_assoc] at h
  obtain ⟨l₁, l₂, rfl, h₁, h₂⟩ := List.sublist_append_iff.mp h
  refine h₁.append ?_
  rw [List.mem_append, not_or] at hx
  cases h₂ with
  | cons _ h₂ => exact h₂
  | cons_cons _ h₂ => exact absurd List.mem_cons_self hx.2

end Before

namespace Broker

variable {N C K : Type*} [DecidableEq K]

/-! ## What precedes what -/

def Foreign (b : Broker N C K) (n : N) (k : K) : Prop :=
  ∃ c m, b.opener c = some m ∧ m ≠ n ∧ k ∈ b.sent c

def Own (b : Broker N C K) (n : N) (k : K) : Prop :=
  ∃ c, b.opener c = some n ∧ k ∈ b.sent c

inductive Precedes (b : Broker N C K) (k k' : K) : Prop
  | sent (c : C) (h : Before (b.sent c) k k')
  /-- The sender of `k'` had seen `k` when it issued `k'`. -/
  | seen (n : N) (hown : b.Own n k') (hforeign : b.Foreign n k)
      (h : k ∈ (b.seen n).takeWhile (· ≠ k'))

/-- The items taken so far, in an order that every node agrees with. -/
structure Agrees (b : Broker N C K) (order : List K) : Prop where
  nodup : order.Nodup
  sent : ∀ k ∈ order, ∃ c, k ∈ b.sent c
  taken : ∀ c, order.filter (· ∈ b.sent c) ++ b.up c = b.sent c
  buffered : ∀ n, ∀ k ∈ b.buffer n, k ∈ b.seen n
  own_seen : ∀ n k, b.Own n k → k ∈ b.seen n
  arrived : ∀ n (l : List K), l.Sublist (b.seen n ++ b.inbox n) →
    (∀ k ∈ l, b.Foreign n k) → l.Sublist order
  replied : ∀ n k k', b.Own n k' → b.Foreign n k →
    k ∈ (b.seen n).takeWhile (· ≠ k') → k' ∈ order → Before order k k'

namespace Agrees

variable {b : Broker N C K} {order : List K} {n : N} {k : K}

theorem issued (h : b.Agrees order) (ho : b.Orderly) (hk : k ∈ order) :
    k ∈ b.issued := by
  obtain ⟨c, hc⟩ := h.sent k hk
  exact ho.sent_issued hc

theorem not_buffer (h : b.Agrees order) (ho : b.Orderly) (hk : k ∈ order) (n : N) :
    k ∉ b.buffer n := by
  intro hbuffer
  obtain ⟨c, hc⟩ := h.sent k hk
  cases ho.apart.inj (p := .inl n) (q := .inr c) hbuffer hc

theorem not_up (h : b.Agrees order) (ho : b.Orderly) {c : C} (hk : k ∈ order)
    (hc : k ∈ b.sent c) : k ∉ b.up c := by
  have hnodup : (b.sent c).Nodup := ho.apart.nodup (.inr c)
  rw [← h.taken c] at hnodup
  have hleft : k ∈ order.filter (· ∈ b.sent c) := by simpa using ⟨hk, hc⟩
  intro hup
  exact (List.nodup_append.mp hnodup).2.2 k hleft k hup rfl

end Agrees

theorem agrees_initial : (initial : Broker N C K).Agrees [] where
  nodup := List.nodup_nil
  sent := nofun
  taken _ := rfl
  buffered := nofun
  own_seen := by
    rintro n k ⟨c, hc, -⟩
    cases hc
  arrived := by
    intro n l hl _
    exact hl
  replied := by
    rintro n k k' ⟨c, hc, -⟩
    cases hc

/-! ## The steps -/

namespace Agrees

variable {b : Broker N C K} {order : List K} {n : N} {k : K}

theorem unseen (h : b.Agrees order) {b' : Broker N C K} (hseen : b'.seen = b.seen)
    (hinbox : ∀ n, (b'.inbox n).Sublist (b.inbox n))
    (hsent : ∀ c, ∀ k ∈ order, k ∈ b.sent c → k ∈ b'.sent c)
    (htaken : ∀ c, order.filter (· ∈ b'.sent c) ++ b'.up c = b'.sent c)
    (hbuffered : ∀ n, ∀ k ∈ b'.buffer n, k ∈ b.seen n)
    (hown : ∀ n k, b'.Own n k → b.Own n k ∨ (k ∉ order ∧ k ∈ b.seen n))
    (hforeign : ∀ n, ∀ k ∈ b.seen n ++ b.inbox n, b'.Foreign n k → b.Foreign n k) :
    b'.Agrees order := by
  refine ⟨h.nodup, ?_, htaken, ?_, ?_, ?_, ?_⟩
  · intro k hk
    obtain ⟨c, hc⟩ := h.sent k hk
    exact ⟨c, hsent c k hk hc⟩
  · rw [hseen]
    exact hbuffered
  · intro n k hk
    rw [hseen]
    exact (hown n k hk).elim (h.own_seen n k) And.right
  · intro n l hl hall
    rw [hseen] at hl
    have hl' := hl.trans ((List.Sublist.refl _).append (hinbox n))
    refine h.arrived n l hl' ?_
    intro k hk
    exact hforeign n k (hl'.subset hk) (hall k hk)
  · intro n k k' hk' hk hmem horder
    rw [hseen] at hmem
    have hseen' : k ∈ b.seen n := (List.takeWhile_sublist _).subset hmem
    have hold : b.Own n k' := (hown n k' hk').resolve_right fun hnew => hnew.1 horder
    exact h.replied n k k' hold
      (hforeign n k (List.mem_append_left _ hseen') hk) hmem horder

theorem seeing [DecidableEq N] (h : b.Agrees order) {b' : Broker N C K} (n : N)
    (hseen : b'.seen = Function.update b.seen n (b.seen n ++ [k]))
    (hopener : b'.opener = b.opener) (hbuffer : b'.buffer = b.buffer)
    (hsent : b'.sent = b.sent) (hup : b'.up = b.up)
    (harrived : ∀ m (l : List K), l.Sublist (b'.seen m ++ b'.inbox m) →
      (∀ k ∈ l, b.Foreign m k) → l.Sublist (b.seen m ++ b.inbox m)) :
    b'.Agrees order := by
  have hforeign : ∀ m x, b'.Foreign m x ↔ b.Foreign m x := by
    intro m x
    rw [Foreign, Foreign, hopener, hsent]
  have hown : ∀ m x, b'.Own m x ↔ b.Own m x := by
    intro m x
    rw [Own, Own, hopener, hsent]
  have hmono : ∀ m, b.seen m <+: b'.seen m := by
    intro m
    rw [hseen, Function.update_apply]
    split
    · rename_i hm
      subst hm
      exact List.prefix_append _ _
    · exact List.prefix_refl _
  refine ⟨h.nodup, by rw [hsent]; exact h.sent, by rw [hsent, hup]; exact h.taken,
    ?_, ?_, ?_, ?_⟩
  · intro m x hx
    rw [hbuffer] at hx
    exact (hmono m).subset (h.buffered m x hx)
  · intro m x hx
    exact (hmono m).subset (h.own_seen m x ((hown m x).mp hx))
  · intro m l hl hall
    have hall' : ∀ x ∈ l, b.Foreign m x := fun x hx => (hforeign m x).mp (hall x hx)
    exact h.arrived m l (harrived m l hl hall') hall'
  · intro m x x' hx' hx hmem horder
    have hold := (hown m x').mp hx'
    obtain ⟨rest, hrest⟩ := hmono m
    rw [← hrest, takeWhile_append_of_mem (h.own_seen m x' hold)] at hmem
    exact h.replied m x x' hold ((hforeign m x).mp hx) hmem horder

variable [DecidableEq N]

theorem issue (h : b.Agrees order) (ho : b.Orderly) (hfresh : k ∉ b.issued) (n : N) :
    (b.issue n k).Agrees order := by
  refine h.seeing n rfl rfl rfl rfl rfl ?_
  intro m l hl hall
  have hnot : k ∉ l := by
    intro hk
    obtain ⟨c, -, -, -, hc⟩ := hall k hk
    exact hfresh (ho.sent_issued hc)
  change l.Sublist (Function.update b.seen n (b.seen n ++ [k]) m ++ b.inbox m) at hl
  rw [Function.update_apply] at hl
  split at hl
  · rename_i hm
    subst hm
    exact sublist_of_insert hl hnot
  · exact hl

theorem sendOver [DecidableEq C] (h : b.Agrees order) (ho : b.Orderly)
    (hfresh : k ∉ b.issued) {c : C} (hc : b.current n = some c) :
    Agrees { b.issue n k with
      sent := Function.update b.sent c (b.sent c ++ [k])
      up := Function.update b.up c (b.up c ++ [k]) } order := by
  have hopener := ho.current_opener n c hc
  have horder : k ∉ order := fun hk => hfresh (h.issued ho hk)
  have hmem : ∀ {d x}, x ∈ Function.update b.sent c (b.sent c ++ [k]) d →
      x ∈ b.sent d ∨ (d = c ∧ x = k) := by
    intro d x hx
    rw [Function.update_apply] at hx
    split at hx
    · rename_i hd
      subst hd
      simpa using hx
    · exact .inl hx
  have hissue := h.issue ho hfresh n
  refine hissue.unseen rfl (fun _ => List.Sublist.refl _) ?_ ?_ hissue.buffered ?_ ?_
  · intro d x _ hx
    simp only [Function.update_apply]
    split
    · rename_i hd
      exact List.mem_append_left _ (hd ▸ hx)
    · exact hx
  · intro d
    simp only [Function.update_apply]
    split
    · have hsame : order.filter (· ∈ b.sent c ++ [k]) = order.filter (· ∈ b.sent c) := by
        refine List.filter_congr ?_
        intro x hx
        have hne : x ≠ k := fun heq => horder (heq ▸ hx)
        simp [hne]
      rw [hsame, ← List.append_assoc, h.taken c]
    · exact h.taken d
  · rintro m x ⟨d, hd, hx⟩
    rcases hmem hx with hold | ⟨rfl, rfl⟩
    · exact .inl ⟨d, hd, hold⟩
    · right
      obtain rfl : n = m := Option.some.inj (hopener.symm.trans hd)
      exact ⟨horder, by simp [Broker.issue]⟩
  · rintro m x hx ⟨d, p, hd, hne, hsent⟩
    rcases hmem hsent with hold | ⟨rfl, rfl⟩
    · exact ⟨d, p, hd, hne, hold⟩
    · obtain rfl : n = p := Option.some.inj (hopener.symm.trans hd)
      have hsame : (b.issue n x).seen m = b.seen m := Function.update_of_ne hne.symm _ _
      rw [hsame] at hx
      exact absurd (ho.issued_of_mem hx) hfresh

theorem sendLater (h : b.Agrees order) (ho : b.Orderly) (hfresh : k ∉ b.issued)
    (n : N) :
    Agrees { b.issue n k with
      buffer := Function.update b.buffer n (b.buffer n ++ [k]) } order := by
  have hissue := h.issue ho hfresh n
  refine hissue.unseen rfl (fun _ => List.Sublist.refl _) (fun _ _ _ hx => hx)
    h.taken ?_ (fun _ _ hx => .inl hx) (fun _ _ _ hx => hx)
  intro m x hx
  simp only [Function.update_apply] at hx
  split at hx
  · rename_i hm
    subst hm
    rcases List.mem_append.mp hx with hold | hnew
    · exact hissue.buffered m x hold
    · rw [List.mem_singleton.mp hnew]
      simp [Broker.issue]
  · exact hissue.buffered m x hx

theorem send [DecidableEq C] (h : b.Agrees order) (ho : b.Orderly)
    (hfresh : k ∉ b.issued) (n : N) (keep : Bool) :
    (b.send n k keep).Agrees order := by
  unfold Broker.send
  split
  · rename_i c hc
    exact h.sendOver ho hfresh hc
  · split
    · exact h.sendLater ho hfresh n
    · exact h.issue ho hfresh n

theorem connect [DecidableEq C] (h : b.Agrees order) (ho : b.Orderly) (n : N) {c : C}
    (hc : b.opener c = none) : (b.connect n c).Agrees order := by
  obtain ⟨hsent, -, hdown⟩ := ho.unopened c hc
  have hmem : ∀ {d x m}, (b.connect n c).opener d = some m →
      x ∈ (b.connect n c).sent d →
      (b.opener d = some m ∧ x ∈ b.sent d) ∨ (n = m ∧ x ∈ b.buffer n) := by
    intro d x m hd hx
    simp only [Broker.connect, Function.update_apply] at hd hx
    split at hd
    · rename_i hdc
      rw [if_pos hdc] at hx
      exact .inr ⟨Option.some.inj hd, hx⟩
    · rename_i hdc
      rw [if_neg hdc] at hx
      exact .inl ⟨hd, hx⟩
  refine h.unseen rfl ?_ ?_ ?_ ?_ ?_ ?_
  · intro m
    by_cases hm : m = n
    · subst hm
      simp [inbox, Broker.connect, hdown]
    · simp [inbox, Broker.connect, hm]
  · intro d x _ hx
    have hne : d ≠ c := by
      rintro rfl
      rw [hsent] at hx
      cases hx
    simpa [Broker.connect, hne] using hx
  · intro d
    simp only [Broker.connect, Function.update_apply]
    split
    · have hnil : order.filter (· ∈ b.buffer n) = [] := by
        rw [List.filter_eq_nil_iff]
        intro x hx
        simpa using h.not_buffer ho hx n
      rw [hnil, List.nil_append]
    · exact h.taken d
  · intro m x hx
    simp only [Broker.connect, Function.update_apply] at hx
    split at hx
    · cases hx
    · exact h.buffered m x hx
  · rintro m x ⟨d, hd, hx⟩
    rcases hmem hd hx with hold | ⟨rfl, hbuffer⟩
    · exact .inl ⟨d, hold⟩
    · exact .inr ⟨fun hx => h.not_buffer ho hx n hbuffer, h.buffered n x hbuffer⟩
  · rintro m x hx ⟨d, p, hd, hne, hxd⟩
    rcases hmem hd hxd with ⟨hd, hxd⟩ | ⟨rfl, hbuffer⟩
    · exact ⟨d, p, hd, hne, hxd⟩
    · exact absurd hx (ho.not_mem_of_buffer hbuffer hne.symm)

theorem close (h : b.Agrees order) (n : N) (keep : Bool) :
    (b.close n keep).Agrees order := by
  refine h.unseen rfl ?_ (fun _ _ _ hx => hx) h.taken ?_ (fun _ _ hx => .inl hx)
    (fun _ _ _ hx => hx)
  · intro m
    by_cases hm : m = n
    · subst hm
      simp [inbox, Broker.close]
    · simp [inbox, Broker.close, hm]
  · intro m x hx
    simp only [Broker.close] at hx
    split at hx
    · exact h.buffered m x hx
    · rw [Function.update_apply] at hx
      split at hx
      · cases hx
      · exact h.buffered m x hx

omit [DecidableEq N] in
theorem forward [DecidableEq C] (h : b.Agrees order) (ho : b.Orderly) {c : C}
    {reaches : C → Bool} {b' : Broker N C K}
    (hstep : b.forward c reaches = some b') : ∃ k, b'.Agrees (order ++ [k]) := by
  unfold Broker.forward at hstep
  split at hstep
  · cases hstep
  rename_i k rest hup
  obtain rfl := Option.some.inj hstep
  have hk : k ∈ b.sent c := (ho.up_suffix c).subset (hup ▸ List.mem_cons_self)
  have hnew : k ∉ order := by
    intro horder
    exact h.not_up ho horder hk (hup ▸ List.mem_cons_self)
  refine ⟨k, ?_, ?_, ?_, h.buffered, h.own_seen, ?_, ?_⟩
  · rw [← List.concat_eq_append]
    exact h.nodup.concat hnew
  · intro x hx
    rcases List.mem_append.mp hx with hold | hlast
    · exact h.sent x hold
    · rw [List.mem_singleton.mp hlast]
      exact ⟨c, hk⟩
  · intro d
    change (order ++ [k]).filter (· ∈ b.sent d) ++ Function.update b.up c rest d =
      b.sent d
    rw [List.filter_append]
    by_cases hdc : d = c
    · subst hdc
      have hlast : [k].filter (· ∈ b.sent d) = [k] := by simp [hk]
      have htaken := h.taken d
      rw [hup] at htaken
      rw [hlast, Function.update_self, List.append_assoc]
      exact htaken
    · have hlast : [k].filter (· ∈ b.sent d) = [] := by
        simp only [List.filter_eq_nil_iff, List.mem_singleton, forall_eq,
          decide_eq_true_eq]
        exact fun hd => hdc (ho.sent_inj hd hk)
      rw [hlast, List.append_nil, Function.update_of_ne hdc]
      exact h.taken d
  · intro m l hl hall
    have hinbox : ∃ added, added.Sublist [k] ∧ l.Sublist (b.seen m ++ b.inbox m ++ added) := by
      cases hcur : b.current m with
      | none => exact ⟨[], List.nil_sublist _, by simpa [inbox, hcur] using hl⟩
      | some d =>
          refine ⟨if reaches d then [k] else [], ?_, ?_⟩
          · split
            · exact List.Sublist.refl _
            · exact List.nil_sublist _
          · simpa [inbox, hcur] using hl
    obtain ⟨added, hadded, hl⟩ := hinbox
    obtain ⟨l₁, l₂, rfl, h₁, h₂⟩ := List.sublist_append_iff.mp hl
    refine (h.arrived m l₁ h₁ ?_).append (h₂.trans hadded)
    intro x hx
    exact hall x (List.mem_append_left _ hx)
  · intro m x x' hx' hx hmem horder
    rcases List.mem_append.mp horder with hold | hlast
    · exact (h.replied m x x' hx' hx hmem hold).append _
    · obtain rfl := List.mem_singleton.mp hlast
      refine before_concat ?_ x'
      have hseen : x ∈ b.seen m := (List.takeWhile_sublist _).subset hmem
      refine List.singleton_sublist.mp (h.arrived m [x] ?_ ?_)
      · exact List.singleton_sublist.mpr (List.mem_append_left _ hseen)
      · intro y hy
        rw [List.mem_singleton.mp hy]
        exact hx

theorem deliver [DecidableEq C] (h : b.Agrees order) (ho : b.Orderly) {accept : Bool}
    {b' : Broker N C K} (hstep : b.deliver n accept = some b') : b'.Agrees order := by
  unfold Broker.deliver at hstep
  obtain ⟨c, hc, hstep⟩ := Option.bind_eq_some_iff.mp hstep
  split at hstep
  · cases hstep
  rename_i k rest hdown
  obtain rfl := Option.some.inj hstep
  have hinbox : ∀ seen m, m ≠ n → Broker.inbox
      { b with down := Function.update b.down c rest, seen := seen } m = b.inbox m := by
    intro seen m hm
    unfold inbox
    split
    · rename_i d hd
      simp only at hd
      have hne : d ≠ c := by
        rintro rfl
        exact hm (Option.some.inj ((ho.current_opener m d hd).symm.trans
          (ho.current_opener n d hc)))
      simp [hd, hne]
    · rename_i hnone
      simp only at hnone
      simp [hnone]
  cases accept with
  | true =>
      refine h.seeing n rfl rfl rfl rfl rfl ?_
      intro m l hl _
      by_cases hm : m = n
      · subst hm
        simpa [inbox, hc, hdown] using hl
      · rw [hinbox _ m hm] at hl
        simpa [hm] using hl
  | false =>
      refine h.unseen rfl ?_ (fun _ _ _ hx => hx) h.taken h.buffered
        (fun _ _ hx => .inl hx) (fun _ _ _ hx => hx)
      intro m
      by_cases hm : m = n
      · subst hm
        simp [inbox, hc, hdown]
      · exact (hinbox _ m hm).symm ▸ List.Sublist.refl _

end Agrees

/-! ## Runs -/

theorem exists_agrees_of_reach [DecidableEq N] [DecidableEq C] {b : Broker N C K}
    (hb : (system N C K).Reach Sound b) : ∃ order, b.Agrees order := by
  refine hb.invariant (I := fun b : Broker N C K => ∃ order, b.Agrees order)
    ⟨[], agrees_initial⟩ ?_
  rintro b a b' hreach ⟨order, h⟩ hsound hstep
  have ho := orderly_of_reach hreach
  cases a with
  | send n k keep =>
      obtain rfl := Option.some.inj hstep
      exact ⟨order, h.send ho hsound n keep⟩
  | connect n c =>
      obtain rfl := Option.some.inj hstep
      exact ⟨order, h.connect ho n hsound⟩
  | close n keep =>
      obtain rfl := Option.some.inj hstep
      exact ⟨order, h.close n keep⟩
  | forward c reaches =>
      obtain ⟨k, hk⟩ := h.forward ho hstep
      exact ⟨order ++ [k], hk⟩
  | deliver n accept => exact ⟨order, h.deliver ho hstep⟩

namespace Agrees

variable {b : Broker N C K} {order : List K} {n : N} {k k' : K}

theorem taken_iff (h : b.Agrees order) (ho : b.Orderly) :
    k ∈ order ↔ ∃ c, k ∈ b.sent c ∧ k ∉ b.up c := by
  constructor
  · intro hk
    obtain ⟨c, hc⟩ := h.sent k hk
    exact ⟨c, hc, h.not_up ho hk hc⟩
  · rintro ⟨c, hc, hup⟩
    rw [← h.taken c, List.mem_append] at hc
    exact List.mem_of_mem_filter (hc.resolve_right hup)

theorem before_of_precedes (h : b.Agrees order) (ho : b.Orderly)
    (hp : b.Precedes k k') (hk' : k' ∈ order) : Before order k k' := by
  cases hp with
  | sent c hbefore =>
      have hup : k' ∉ b.up c := h.not_up ho hk' hbefore.mem_right
      rw [← h.taken c] at hbefore
      obtain ⟨l₁, l₂, heq, h₁, h₂⟩ := List.sublist_append_iff.mp hbefore
      cases l₂ with
      | nil =>
          rw [List.append_nil] at heq
          rw [← heq] at h₁
          exact h₁.trans List.filter_sublist
      | cons x l₂ =>
          have hlast : k' ∈ x :: l₂ := by
            have hmem : (x :: l₂).getLast? = some k' := by
              rw [← List.getLast?_append_of_ne_nil l₁ (List.cons_ne_nil x l₂), ← heq]
              rfl
            exact List.mem_of_getLast? hmem
          exact absurd (h₂.subset hlast) hup
  | seen n hown hforeign hmem => exact h.replied n k k' hown hforeign hmem hk'

/-- The order extends the transitive closure of what precedes what. -/
theorem before_of_transGen (h : b.Agrees order) (ho : b.Orderly)
    (hp : Relation.TransGen b.Precedes k k') (hk' : k' ∈ order) :
    Before order k k' := by
  induction hp using Relation.TransGen.head_induction_on with
  | single hp => exact h.before_of_precedes ho hp hk'
  | head hp _ ih => exact (h.before_of_precedes ho hp ih.mem_left).trans ih h.nodup

end Agrees

end Broker

end CommonChat.Foundation
