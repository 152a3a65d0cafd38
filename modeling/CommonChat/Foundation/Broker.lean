import CommonChat.Foundation.Transition
import Mathlib.Data.List.Infix
import Mathlib.Data.List.Nodup
import Mathlib.Data.Sum.Basic

/-!
# Forwarding over first-in, first-out channels

Nodes issue items and send them over channels to a broker, which forwards each
item to some of the open channels.  A node has at most one current channel and
may lose it at any time, with everything that was under way to it; an item
issued without a channel waits in the buffer of its node, or is lost.

Three results do not depend on where the broker forwards: no channel is sent an
item twice, a node sees the items of every channel of another node in the order
in which they were sent, and an item that was handled before a channel was opened
never comes over it.
-/

namespace CommonChat.Foundation

/-! ## Items kept in separate places -/

structure Apart {P K : Type*} (held : P → List K) (issued : List K) : Prop where
  nodup : ∀ p, (held p).Nodup
  inj : ∀ {p q k}, k ∈ held p → k ∈ held q → p = q
  issued : ∀ {p k}, k ∈ held p → k ∈ issued

namespace Apart

variable {P K : Type*} {held : P → List K} {issued : List K}

theorem issue (h : Apart held issued) (k : K) : Apart held (issued ++ [k]) where
  nodup := h.nodup
  inj := h.inj
  issued hk := List.mem_append_left _ (h.issued hk)

variable [DecidableEq P]

theorem push (h : Apart held issued) {k : K} (hfresh : k ∉ issued) (p : P) :
    Apart (Function.update held p (held p ++ [k])) (issued ++ [k]) := by
  have hmem : ∀ {q x}, x ∈ Function.update held p (held p ++ [k]) q →
      x ∈ held q ∨ (q = p ∧ x = k) := by
    intro q x hx
    rw [Function.update_apply] at hx
    split at hx
    · rename_i hq
      subst hq
      simpa using hx
    · exact .inl hx
  refine ⟨?_, ?_, ?_⟩
  · intro q
    rw [Function.update_apply]
    split
    · rw [← List.concat_eq_append]
      exact (h.nodup p).concat fun hk => hfresh (h.issued hk)
    · exact h.nodup q
  · intro q r x hq hr
    rcases hmem hq with hold | ⟨rfl, hxk⟩
    · rcases hmem hr with hold' | ⟨-, hxk⟩
      · exact h.inj hold hold'
      · exact absurd (hxk ▸ h.issued hold) hfresh
    · rcases hmem hr with hold' | ⟨rfl, -⟩
      · exact absurd (hxk ▸ h.issued hold') hfresh
      · rfl
  · intro q x hx
    rcases hmem hx with hx | ⟨-, rfl⟩
    · exact List.mem_append_left _ (h.issued hx)
    · exact List.mem_append_right _ (List.mem_singleton_self _)

theorem clear (h : Apart held issued) (p : P) :
    Apart (Function.update held p []) issued := by
  have hmem : ∀ {q x}, x ∈ Function.update held p [] q → x ∈ held q := by
    intro q x hx
    rw [Function.update_apply] at hx
    split at hx
    · cases hx
    · exact hx
  refine ⟨?_, fun hq hr => h.inj (hmem hq) (hmem hr), fun hq => h.issued (hmem hq)⟩
  intro q
  rw [Function.update_apply]
  split
  · exact List.nodup_nil
  · exact h.nodup q

theorem move (h : Apart held issued) (p q : P) :
    Apart (Function.update (Function.update held p []) q (held p)) issued := by
  have hmem : ∀ {r x}, x ∈ Function.update (Function.update held p []) q (held p) r →
      (r = q ∧ x ∈ held p) ∨ (r ≠ p ∧ x ∈ held r) := by
    intro r x hx
    simp only [Function.update_apply] at hx
    split at hx
    · rename_i hr
      exact .inl ⟨hr, hx⟩
    split at hx
    · cases hx
    · rename_i hr
      exact .inr ⟨hr, hx⟩
  refine ⟨?_, ?_, ?_⟩
  · intro r
    simp only [Function.update_apply]
    split
    · exact h.nodup p
    split
    · exact List.nodup_nil
    · exact h.nodup r
  · intro r s x hr hs
    rcases hmem hr with ⟨hrq, hmoved⟩ | ⟨hrp, hold⟩
    · rcases hmem hs with ⟨hsq, -⟩ | ⟨hsp, hold'⟩
      · exact hrq.trans hsq.symm
      · exact absurd (h.inj hold' hmoved) hsp
    · rcases hmem hs with ⟨-, hmoved⟩ | ⟨-, hold'⟩
      · exact absurd (h.inj hold hmoved) hrp
      · exact h.inj hold hold'
  · intro r x hx
    rcases hmem hx with ⟨-, hx⟩ | ⟨-, hx⟩ <;> exact h.issued hx

end Apart

/-! ## Order of arrival -/

section Order

variable {K : Type*} [DecidableEq K] {sent pending seen : List K} {k : K}

/-- What is seen of the items of a channel, and then what is pending, is in order. -/
def KeepsOrder (sent pending seen : List K) : Prop :=
  (seen.filter (· ∈ sent) ++ pending).Sublist sent

theorem KeepsOrder.seen_sublist (h : KeepsOrder sent pending seen) :
    (seen.filter (· ∈ sent)).Sublist sent :=
  (List.sublist_append_left _ _).trans h

theorem keepsOrder_of_unseen (h : ∀ x ∈ seen, x ∉ sent) :
    KeepsOrder sent sent seen := by
  have hnil : seen.filter (· ∈ sent) = [] := by
    simpa [List.filter_eq_nil_iff] using h
  rw [KeepsOrder, hnil]
  exact List.Sublist.refl _

theorem KeepsOrder.mono {seen' : List K} (h : KeepsOrder sent pending seen)
    (hsub : seen'.Sublist seen) : KeepsOrder sent pending seen' :=
  ((hsub.filter _).append (List.Sublist.refl _)).trans h

theorem KeepsOrder.send (h : KeepsOrder sent pending seen) (hk : k ∉ seen) :
    KeepsOrder (sent ++ [k]) (pending ++ [k]) seen := by
  have hsame : seen.filter (· ∈ sent ++ [k]) = seen.filter (· ∈ sent) := by
    refine List.filter_congr ?_
    intro x hx
    have hne : x ≠ k := fun heq => hk (heq ▸ hx)
    simp [hne]
  rw [KeepsOrder, hsame, ← List.append_assoc]
  exact List.Sublist.append h (List.Sublist.refl _)

theorem KeepsOrder.lose (h : KeepsOrder sent (k :: pending) seen) :
    KeepsOrder sent pending seen :=
  ((List.Sublist.refl _).append (List.sublist_cons_self k pending)).trans h

theorem KeepsOrder.forward (h : KeepsOrder sent (k :: pending) seen) :
    KeepsOrder sent pending (seen ++ [k]) := by
  have hk : k ∈ sent := h.subset (by simp)
  have hlast : [k].filter (· ∈ sent) = [k] := by simp [hk]
  rw [KeepsOrder, List.filter_append, hlast, List.append_assoc]
  exact h

theorem KeepsOrder.insert {before after : List K}
    (h : KeepsOrder sent pending (before ++ after)) (hk : k ∉ sent) :
    KeepsOrder sent pending (before ++ [k] ++ after) := by
  have hnone : [k].filter (· ∈ sent) = [] := by simp [hk]
  rw [KeepsOrder, List.filter_append, List.filter_append, hnone, List.append_nil,
    ← List.filter_append]
  exact h

end Order

/-! ## The broker -/

@[ext]
structure Broker (N C K : Type*) where
  issued : List K
  opener : C → Option N
  current : N → Option C
  buffer : N → List K
  sent : C → List K
  up : C → List K
  queued : C → List K
  down : C → List K
  seen : N → List K

namespace Broker

variable {N C K : Type*}

inductive Action (N C K : Type*) where
  | send (node : N) (item : K) (keep : Bool)
  | connect (node : N) (channel : C)
  | close (node : N) (keep : Bool)
  | forward (channel : C) (reaches : C → Bool)
  | deliver (node : N) (accept : Bool)

def initial : Broker N C K where
  issued := []
  opener := fun _ => none
  current := fun _ => none
  buffer := fun _ => []
  sent := fun _ => []
  up := fun _ => []
  queued := fun _ => []
  down := fun _ => []
  seen := fun _ => []

def inbox (b : Broker N C K) (n : N) : List K :=
  match b.current n with
  | some c => b.down c
  | none => []

def held (b : Broker N C K) : N ⊕ C → List K := Sum.elim b.buffer b.sent

structure Orderly [DecidableEq K] (b : Broker N C K) : Prop where
  current_opener : ∀ n c, b.current n = some c → b.opener c = some n
  unopened : ∀ c, b.opener c = none →
    b.sent c = [] ∧ b.queued c = [] ∧ b.down c = []
  apart : Apart b.held b.issued
  up_suffix : ∀ c, b.up c <:+ b.sent c
  down_suffix : ∀ c, b.down c <:+ b.queued c
  handled : ∀ c, ∀ k ∈ b.queued c, ∃ d, k ∈ b.sent d ∧ k ∉ b.up d
  queued_nodup : ∀ c, (b.queued c).Nodup
  seen_issued : ∀ n, ∀ k ∈ b.seen n, k ∈ b.issued
  buffer_unseen : ∀ m n, ∀ k ∈ b.buffer n, m ≠ n → k ∉ b.seen m
  ordered : ∀ m n c, b.opener c = some m → n ≠ m →
    KeepsOrder (b.sent c) (b.up c) (b.seen n ++ b.inbox n)

namespace Orderly

variable [DecidableEq K] {b : Broker N C K}

theorem sent_issued (h : b.Orderly) {c : C} {k : K} (hk : k ∈ b.sent c) :
    k ∈ b.issued :=
  h.apart.issued (p := .inr c) hk

theorem sent_inj (h : b.Orderly) {c d : C} {k : K} (hc : k ∈ b.sent c)
    (hd : k ∈ b.sent d) : c = d := by
  cases h.apart.inj (p := .inr c) (q := .inr d) hc hd
  rfl

theorem sent_of_down (h : b.Orderly) {c : C} {k : K} (hk : k ∈ b.down c) :
    ∃ d, k ∈ b.sent d := by
  obtain ⟨d, hd, -⟩ := h.handled c k ((h.down_suffix c).subset hk)
  exact ⟨d, hd⟩

theorem not_buffer_of_down (h : b.Orderly) {c : C} {k : K} (hk : k ∈ b.down c)
    (n : N) : k ∉ b.buffer n := by
  intro hbuffer
  obtain ⟨d, hd⟩ := h.sent_of_down hk
  cases h.apart.inj (p := .inl n) (q := .inr d) hbuffer hd

theorem issued_of_mem (h : b.Orderly) {n : N} {k : K}
    (hk : k ∈ b.seen n ++ b.inbox n) : k ∈ b.issued := by
  rcases List.mem_append.mp hk with hseen | hinbox
  · exact h.seen_issued n k hseen
  · unfold inbox at hinbox
    split at hinbox
    · obtain ⟨d, hd⟩ := h.sent_of_down hinbox
      exact h.sent_issued hd
    · cases hinbox

theorem not_mem_of_buffer (h : b.Orderly) {m n : N} {k : K} (hk : k ∈ b.buffer n)
    (hne : m ≠ n) : k ∉ b.seen m ++ b.inbox m := by
  intro hmem
  rcases List.mem_append.mp hmem with hseen | hinbox
  · exact h.buffer_unseen m n k hk hne hseen
  · unfold inbox at hinbox
    split at hinbox
    · exact h.not_buffer_of_down hinbox n hk
    · cases hinbox

end Orderly

theorem orderly_initial [DecidableEq K] : (initial : Broker N C K).Orderly where
  current_opener := nofun
  unopened _ _ := ⟨rfl, rfl, rfl⟩
  apart := by
    refine ⟨?_, ?_, ?_⟩
    · rintro (n | c) <;> exact List.nodup_nil
    · rintro (n | c) q k hk <;> cases hk
    · rintro (n | c) k hk <;> cases hk
  up_suffix _ := List.suffix_refl _
  down_suffix _ := List.suffix_refl _
  handled := nofun
  queued_nodup _ := List.nodup_nil
  seen_issued := nofun
  buffer_unseen := nofun
  ordered := nofun

/-! ## The steps -/

variable [DecidableEq N] [DecidableEq C]

def issue (b : Broker N C K) (n : N) (k : K) : Broker N C K :=
  { b with
    issued := b.issued ++ [k]
    seen := Function.update b.seen n (b.seen n ++ [k]) }

def send (b : Broker N C K) (n : N) (k : K) (keep : Bool) : Broker N C K :=
  match b.current n with
  | some c =>
      { b.issue n k with
        sent := Function.update b.sent c (b.sent c ++ [k])
        up := Function.update b.up c (b.up c ++ [k]) }
  | none =>
      if keep then
        { b.issue n k with
          buffer := Function.update b.buffer n (b.buffer n ++ [k]) }
      else b.issue n k

def connect (b : Broker N C K) (n : N) (c : C) : Broker N C K :=
  { b with
    opener := Function.update b.opener c (some n)
    current := Function.update b.current n (some c)
    buffer := Function.update b.buffer n []
    sent := Function.update b.sent c (b.buffer n)
    up := Function.update b.up c (b.buffer n) }

def close (b : Broker N C K) (n : N) (keep : Bool) : Broker N C K :=
  { b with
    current := Function.update b.current n none
    buffer := if keep then b.buffer else Function.update b.buffer n [] }

def forward (b : Broker N C K) (c : C) (reaches : C → Bool) :
    Option (Broker N C K) :=
  match b.up c with
  | [] => none
  | k :: rest =>
      some { b with
        up := Function.update b.up c rest
        queued := fun d => b.queued d ++ if reaches d then [k] else []
        down := fun d => b.down d ++ if reaches d then [k] else [] }

def deliver (b : Broker N C K) (n : N) (accept : Bool) :
    Option (Broker N C K) :=
  (b.current n).bind fun c =>
    match b.down c with
    | [] => none
    | k :: rest =>
        some { b with
          down := Function.update b.down c rest
          seen := if accept then Function.update b.seen n (b.seen n ++ [k])
            else b.seen }

def step (b : Broker N C K) : Action N C K → Option (Broker N C K)
  | .send n k keep => some (b.send n k keep)
  | .connect n c => some (b.connect n c)
  | .close n keep => some (b.close n keep)
  | .forward c reaches => b.forward c reaches
  | .deliver n accept => b.deliver n accept

def system (N C K : Type*) [DecidableEq N] [DecidableEq C] :
    System (Broker N C K) (Action N C K) := ⟨initial, step⟩

def Sound (b : Broker N C K) : Action N C K → Prop
  | .send _ k _ => k ∉ b.issued
  | .connect _ c => b.opener c = none
  | .forward _ reaches => ∀ d, reaches d = true → b.opener d ≠ none
  | _ => True

namespace Orderly

variable [DecidableEq K] {b : Broker N C K} {n : N} {k : K}

omit [DecidableEq C] in
theorem issue (h : b.Orderly) (hfresh : k ∉ b.issued) (n : N) :
    (b.issue n k).Orderly := by
  refine ⟨h.current_opener, h.unopened, h.apart.issue k, h.up_suffix, h.down_suffix,
    h.handled, h.queued_nodup, ?_, ?_, ?_⟩
  · intro m x hx
    simp only [Broker.issue, Function.update_apply] at hx ⊢
    split at hx
    · exact (List.mem_append.mp hx).elim
        (fun hold => List.mem_append_left _ (h.seen_issued n x hold))
        (fun hnew => List.mem_append_right _ hnew)
    · exact List.mem_append_left _ (h.seen_issued m x hx)
  · intro m p x hx hne hseen
    simp only [Broker.issue, Function.update_apply] at hx hseen
    split at hseen
    · rename_i hm
      rcases List.mem_append.mp hseen with hold | hnew
      · exact h.buffer_unseen n p x hx (hm ▸ hne) hold
      · obtain rfl := List.mem_singleton.mp hnew
        exact hfresh (h.apart.issued (p := .inl p) hx)
    · exact h.buffer_unseen m p x hx hne hseen
  · intro m p c hc hne
    have hold := h.ordered m p c hc hne
    change KeepsOrder (b.sent c) (b.up c)
      (Function.update b.seen n (b.seen n ++ [k]) p ++ b.inbox p)
    rw [Function.update_apply]
    split
    · rename_i hp
      subst hp
      exact hold.insert fun hsent => hfresh (h.sent_issued hsent)
    · exact hold

theorem sendOver (h : b.Orderly) (hfresh : k ∉ b.issued) {c : C}
    (hc : b.current n = some c) :
    Orderly { b.issue n k with
      sent := Function.update b.sent c (b.sent c ++ [k])
      up := Function.update b.up c (b.up c ++ [k]) } := by
  have hissue := h.issue hfresh n
  have hopener := h.current_opener n c hc
  refine ⟨h.current_opener, ?_, ?_, ?_, h.down_suffix, ?_, h.queued_nodup,
    hissue.seen_issued, hissue.buffer_unseen, ?_⟩
  · intro d hd
    have hne : d ≠ c := by
      rintro rfl
      exact absurd (hopener.symm.trans hd) (by simp)
    obtain ⟨hsent, hrest⟩ := h.unopened d hd
    exact ⟨(Function.update_of_ne hne _ _).trans hsent, hrest⟩
  · have hpush := h.apart.push hfresh (.inr c)
    unfold held at hpush
    rw [← Sum.elim_update_right] at hpush
    exact hpush
  · intro d
    simp only [Function.update_apply]
    split
    · exact List.suffix_append_self_iff.mpr (h.up_suffix c)
    · exact h.up_suffix d
  · intro d x hx
    obtain ⟨e, hsent, hup⟩ := h.handled d x hx
    refine ⟨e, ?_, ?_⟩
    · simp only [Function.update_apply]
      split
      · rename_i he
        exact List.mem_append_left _ (he ▸ hsent)
      · exact hsent
    · simp only [Function.update_apply]
      split
      · rename_i he
        subst he
        intro hmem
        rcases List.mem_append.mp hmem with hold | hnew
        · exact hup hold
        · rw [List.mem_singleton.mp hnew] at hsent
          exact hfresh (h.sent_issued hsent)
      · exact hup
  · intro m p d hd hne
    simp only [Function.update_apply]
    by_cases hdc : d = c
    · subst hdc
      obtain rfl : n = m := Option.some.inj (hopener.symm.trans hd)
      rw [if_pos rfl, if_pos rfl]
      have hseen : Function.update b.seen n (b.seen n ++ [k]) p = b.seen p :=
        Function.update_of_ne hne _ _
      change KeepsOrder _ _ (Function.update b.seen n (b.seen n ++ [k]) p ++
        b.inbox p)
      rw [hseen]
      exact (h.ordered n p d hd hne).send fun hmem => hfresh (h.issued_of_mem hmem)
    · rw [if_neg hdc, if_neg hdc]
      exact hissue.ordered m p d hd hne

theorem sendLater (h : b.Orderly) (hfresh : k ∉ b.issued) (n : N) :
    Orderly { b.issue n k with
      buffer := Function.update b.buffer n (b.buffer n ++ [k]) } := by
  have hissue := h.issue hfresh n
  refine ⟨h.current_opener, h.unopened, ?_, h.up_suffix, h.down_suffix, h.handled,
    h.queued_nodup, hissue.seen_issued, ?_, hissue.ordered⟩
  · have hpush := h.apart.push hfresh (.inl n)
    unfold held at hpush
    rw [← Sum.elim_update_left] at hpush
    exact hpush
  · intro m p x hx hne
    simp only [Function.update_apply] at hx
    split at hx
    · rename_i hp
      subst hp
      rcases List.mem_append.mp hx with hold | hnew
      · exact hissue.buffer_unseen m p x hold hne
      · obtain rfl := List.mem_singleton.mp hnew
        intro hseen
        simp only [Broker.issue, Function.update_of_ne hne] at hseen
        exact hfresh (h.seen_issued m x hseen)
    · exact hissue.buffer_unseen m p x hx hne

theorem send (h : b.Orderly) (hfresh : k ∉ b.issued) (n : N) (keep : Bool) :
    (b.send n k keep).Orderly := by
  unfold Broker.send
  split
  · rename_i c hc
    exact h.sendOver hfresh hc
  · split
    · exact h.sendLater hfresh n
    · exact h.issue hfresh n

theorem connect (h : b.Orderly) (n : N) {c : C} (hc : b.opener c = none) :
    (b.connect n c).Orderly := by
  obtain ⟨hsent, -, hdown⟩ := h.unopened c hc
  have hinbox : ∀ m, m ≠ n → (b.connect n c).inbox m = b.inbox m := by
    intro m hm
    simp [inbox, Broker.connect, hm]
  refine ⟨?_, ?_, ?_, ?_, h.down_suffix, ?_, h.queued_nodup, h.seen_issued, ?_, ?_⟩
  · intro m d hd
    simp only [Broker.connect, Function.update_apply] at hd ⊢
    split at hd
    · rename_i hm
      obtain rfl := Option.some.inj hd
      rw [if_pos rfl, hm]
    · have hopener := h.current_opener m d hd
      rw [if_neg (by rintro rfl; exact absurd (hopener.symm.trans hc) (by simp))]
      exact hopener
  · intro d hd
    simp only [Broker.connect, Function.update_apply] at hd ⊢
    split at hd
    · cases hd
    · rename_i hne
      rw [if_neg hne]
      exact h.unopened d hd
  · have hmove := h.apart.move (.inl n) (.inr c)
    unfold held at hmove
    rw [← Sum.elim_update_left, ← Sum.elim_update_right] at hmove
    exact hmove
  · intro d
    simp only [Broker.connect, Function.update_apply]
    split
    · exact List.suffix_refl _
    · exact h.up_suffix d
  · intro d x hx
    obtain ⟨e, he, hup⟩ := h.handled d x hx
    have hne : e ≠ c := by
      rintro rfl
      rw [hsent] at he
      cases he
    refine ⟨e, ?_, ?_⟩
    · simpa [Broker.connect, hne] using he
    · simpa [Broker.connect, hne] using hup
  · intro m p x hx hne
    simp only [Broker.connect, Function.update_apply] at hx
    split at hx
    · cases hx
    · exact h.buffer_unseen m p x hx hne
  · intro m p d hd hne
    by_cases hdc : d = c
    · subst hdc
      obtain rfl : n = m := by simpa [Broker.connect] using hd
      rw [hinbox p hne]
      have hnew : (b.connect n d).sent d = b.buffer n ∧
          (b.connect n d).up d = b.buffer n := by
        simp [Broker.connect]
      rw [hnew.1, hnew.2]
      exact keepsOrder_of_unseen fun x hx hbuffer => h.not_mem_of_buffer hbuffer hne hx
    · have hsame : (b.connect n c).sent d = b.sent d ∧
          (b.connect n c).up d = b.up d ∧ b.opener d = some m := by
        simpa [Broker.connect, hdc] using hd
      rw [hsame.1, hsame.2.1]
      have hold := h.ordered m p d hsame.2.2 hne
      by_cases hp : p = n
      · subst hp
        have hnil : (b.connect p c).inbox p = [] := by
          simp [inbox, Broker.connect, hdown]
        rw [hnil, List.append_nil]
        exact hold.mono (List.sublist_append_left _ _)
      · rw [hinbox p hp]
        exact hold

theorem close (h : b.Orderly) (n : N) (keep : Bool) : (b.close n keep).Orderly := by
  have hbuffer : ∀ m x, x ∈ (b.close n keep).buffer m → x ∈ b.buffer m := by
    intro m x hx
    simp only [Broker.close] at hx
    split at hx
    · exact hx
    · rw [Function.update_apply] at hx
      split at hx
      · cases hx
      · exact hx
  refine ⟨?_, h.unopened, ?_, h.up_suffix, h.down_suffix, h.handled, h.queued_nodup,
    h.seen_issued, fun m p x hx => h.buffer_unseen m p x (hbuffer p x hx), ?_⟩
  · intro m c hc
    simp only [Broker.close, Function.update_apply] at hc
    split at hc
    · cases hc
    · exact h.current_opener m c hc
  · cases keep with
    | true => exact h.apart
    | false =>
        have hclear := h.apart.clear (.inl n)
        unfold held at hclear
        rw [← Sum.elim_update_left] at hclear
        exact hclear
  · intro m p c hc hne
    refine (h.ordered m p c hc hne).mono ?_
    refine (List.Sublist.refl _).append ?_
    by_cases hp : p = n
    · subst hp
      simp [inbox, Broker.close]
    · simp [inbox, Broker.close, hp]

omit [DecidableEq N] in
theorem forward (h : b.Orderly) {c : C} {reaches : C → Bool}
    (hreach : ∀ d, reaches d = true → b.opener d ≠ none) {b' : Broker N C K}
    (hstep : b.forward c reaches = some b') : b'.Orderly := by
  unfold Broker.forward at hstep
  split at hstep
  · cases hstep
  rename_i k rest hup
  obtain rfl := Option.some.inj hstep
  have hsuffix : k :: rest <:+ b.sent c := hup ▸ h.up_suffix c
  have hk : k ∈ b.sent c := hsuffix.subset List.mem_cons_self
  have hrest : k ∉ rest :=
    (List.nodup_cons.mp ((h.apart.nodup (.inr c)).sublist hsuffix.sublist)).1
  have hnew : ∀ d, k ∉ b.queued d := by
    intro d hd
    obtain ⟨e, he, hnot⟩ := h.handled d k hd
    obtain rfl := h.sent_inj he hk
    exact hnot (hup ▸ List.mem_cons_self)
  refine ⟨h.current_opener, ?_, h.apart, ?_, ?_, ?_, ?_, h.seen_issued,
    h.buffer_unseen, ?_⟩
  · intro d hd
    have hnot : ¬ reaches d = true := fun hr => hreach d hr hd
    simpa [hnot] using h.unopened d hd
  · intro d
    simp only [Function.update_apply]
    split
    · rename_i hd
      subst hd
      exact (List.suffix_cons k rest).trans hsuffix
    · exact h.up_suffix d
  · intro d
    exact List.suffix_append_self_iff.mpr (h.down_suffix d)
  · intro d x hx
    rcases List.mem_append.mp hx with hold | hx
    · obtain ⟨e, he, hnot⟩ := h.handled d x hold
      refine ⟨e, he, ?_⟩
      simp only [Function.update_apply]
      split
      · rename_i hec
        subst hec
        rw [hup] at hnot
        exact fun hmem => hnot (List.mem_cons_of_mem _ hmem)
      · exact hnot
    · split at hx
      · obtain rfl := List.mem_singleton.mp hx
        exact ⟨c, hk, by simpa using hrest⟩
      · cases hx
  · intro d
    simp only
    split
    · rw [← List.concat_eq_append]
      exact (h.queued_nodup d).concat (hnew d)
    · simpa using h.queued_nodup d
  · intro m p d hd hne
    have hold := h.ordered m p d hd hne
    have hinbox : ∃ added, (added = [k] ∨ added = []) ∧ ∀ up, Broker.inbox
        { b with
          up := up
          queued := fun d => b.queued d ++ if reaches d then [k] else []
          down := fun d => b.down d ++ if reaches d then [k] else [] } p =
        b.inbox p ++ added := by
      cases hcur : b.current p with
      | none => exact ⟨[], .inr rfl, fun up => by simp [inbox, hcur]⟩
      | some e =>
          refine ⟨if reaches e then [k] else [], ?_, fun up => by simp [inbox, hcur]⟩
          split
          · exact .inl rfl
          · exact .inr rfl
    obtain ⟨added, hadded, heq⟩ := hinbox
    rw [heq, ← List.append_assoc]
    by_cases hdc : d = c
    · subst hdc
      simp only [Function.update_self]
      rw [hup] at hold
      rcases hadded with rfl | rfl
      · exact hold.forward
      · rw [List.append_nil]
        exact hold.lose
    · simp only [Function.update_of_ne hdc]
      rcases hadded with rfl | rfl
      · have hother : k ∉ b.sent d := fun hkd => hdc (h.sent_inj hkd hk)
        rw [← List.append_nil (b.seen p ++ b.inbox p)] at hold
        simpa using hold.insert hother
      · rw [List.append_nil]
        exact hold

theorem deliver (h : b.Orderly) {accept : Bool} {b' : Broker N C K}
    (hstep : b.deliver n accept = some b') : b'.Orderly := by
  unfold Broker.deliver at hstep
  obtain ⟨c, hc, hstep⟩ := Option.bind_eq_some_iff.mp hstep
  split at hstep
  · cases hstep
  rename_i k rest hdown
  obtain rfl := Option.some.inj hstep
  have hk : k ∈ b.down c := hdown ▸ List.mem_cons_self
  obtain ⟨e, he⟩ := h.sent_of_down hk
  refine ⟨h.current_opener, ?_, h.apart, h.up_suffix, ?_, h.handled, h.queued_nodup,
    ?_, ?_, ?_⟩
  · intro d hd
    have hne : d ≠ c := by
      rintro rfl
      exact absurd ((h.current_opener n d hc).symm.trans hd) (by simp)
    simpa [hne] using h.unopened d hd
  · intro d
    simp only [Function.update_apply]
    split
    · rename_i hd
      subst hd
      exact (List.suffix_cons k rest).trans (hdown ▸ h.down_suffix d)
    · exact h.down_suffix d
  · intro m x hx
    simp only at hx
    split at hx
    · rw [Function.update_apply] at hx
      split at hx
      · rcases List.mem_append.mp hx with hold | hnew
        · exact h.seen_issued n x hold
        · obtain rfl := List.mem_singleton.mp hnew
          exact h.sent_issued he
      · exact h.seen_issued m x hx
    · exact h.seen_issued m x hx
  · intro m p x hx hne hseen
    simp only at hseen
    split at hseen
    · rw [Function.update_apply] at hseen
      split at hseen
      · rename_i hm
        rcases List.mem_append.mp hseen with hold | hnew
        · exact h.buffer_unseen n p x hx (hm ▸ hne) hold
        · exact h.not_buffer_of_down hk p (List.mem_singleton.mp hnew ▸ hx)
      · exact h.buffer_unseen m p x hx hne hseen
    · exact h.buffer_unseen m p x hx hne hseen
  · intro m p d hd hne
    refine (h.ordered m p d hd hne).mono ?_
    by_cases hp : p = n
    · subst hp
      cases accept with
      | true => simp [inbox, hc, hdown]
      | false =>
          simp only [inbox, hc, hdown, Function.update_self]
          exact (List.Sublist.refl _).append (List.sublist_cons_self k rest)
    · have hinbox : ∀ seen, Broker.inbox
          { b with down := Function.update b.down c rest, seen := seen } p =
          b.inbox p := by
        intro seen
        unfold inbox
        split
        · rename_i d' hd'
          have hne : d' ≠ c := by
            rintro rfl
            exact hp (Option.some.inj ((h.current_opener p d' hd').symm.trans
              (h.current_opener n d' hc)))
          simp only at hd'
          simp [hd', hne]
        · rename_i hnone
          simp only at hnone
          simp [hnone]
      rw [hinbox]
      cases accept <;> simp [hp]

end Orderly

/-! ## Runs -/

theorem orderly_of_reach [DecidableEq K] {b : Broker N C K}
    (hb : (system N C K).Reach Sound b) : b.Orderly := by
  refine hb.invariant orderly_initial ?_
  intro b a b' _ h hsound hstep
  cases a with
  | send n k keep =>
      obtain rfl := Option.some.inj hstep
      exact h.send hsound n keep
  | connect n c =>
      obtain rfl := Option.some.inj hstep
      exact h.connect n hsound
  | close n keep =>
      obtain rfl := Option.some.inj hstep
      exact h.close n keep
  | forward c reaches => exact h.forward hsound hstep
  | deliver n accept => exact h.deliver hstep

/-- The items of one channel are seen by every other node in the order of sending. -/
theorem seen_sublist [DecidableEq K] {b : Broker N C K}
    (hb : (system N C K).Reach Sound b) {m n : N} {c : C}
    (hc : b.opener c = some m) (hne : n ≠ m) :
    ((b.seen n).filter (· ∈ b.sent c)).Sublist (b.sent c) :=
  (((orderly_of_reach hb).ordered m n c hc hne).mono
    (List.sublist_append_left _ _)).seen_sublist

/-! ## Handled items -/

def Handled (b : Broker N C K) (k : K) : Prop := ∃ c, k ∈ b.sent c ∧ k ∉ b.up c

theorem Handled.send {b : Broker N C K} {k x : K} (h : b.Handled k) (hne : k ≠ x)
    (n : N) (keep : Bool) : (b.send n x keep).Handled k := by
  obtain ⟨c, hsent, hup⟩ := h
  unfold Broker.send
  split
  · rename_i d hd
    refine ⟨c, ?_, ?_⟩ <;> simp only [Function.update_apply] <;> split
    · rename_i hc
      rw [hc] at hsent
      exact List.mem_append_left _ hsent
    · exact hsent
    · rename_i hc
      rw [hc] at hup
      simp [hup, hne]
    · exact hup
  · split <;> exact ⟨c, hsent, hup⟩

theorem Handled.step [DecidableEq K] {b b' : Broker N C K} {a : Action N C K} {k : K}
    (h : b.Handled k) (ho : b.Orderly) (hsound : b.Sound a)
    (hstep : b.step a = some b') :
    b'.Handled k ∧ ∀ c, k ∈ b'.queued c → k ∈ b.queued c := by
  have hold := h
  obtain ⟨c, hsent, hup⟩ := h
  cases a with
  | send n x keep =>
      obtain rfl := Option.some.inj hstep
      have hne : k ≠ x := by
        rintro rfl
        exact hsound (ho.sent_issued hsent)
      refine ⟨hold.send hne n keep, ?_⟩
      intro d hd
      unfold Broker.send at hd
      split at hd
      · exact hd
      · split at hd <;> exact hd
  | connect n d =>
      obtain rfl := Option.some.inj hstep
      have hcd : c ≠ d := by
        rintro rfl
        rw [(ho.unopened c hsound).1] at hsent
        cases hsent
      refine ⟨⟨c, ?_, ?_⟩, fun _ hq => hq⟩
      · simpa [Broker.connect, hcd] using hsent
      · simpa [Broker.connect, hcd] using hup
  | close n keep =>
      obtain rfl := Option.some.inj hstep
      exact ⟨hold, fun _ hq => hq⟩
  | forward d reaches =>
      simp only [Broker.step, Broker.forward] at hstep
      split at hstep
      · cases hstep
      · rename_i x rest hd
        obtain rfl := Option.some.inj hstep
        have hne : k ≠ x := by
          rintro rfl
          have hmem : k ∈ b.up d := by rw [hd]; exact List.mem_cons_self
          obtain rfl := ho.sent_inj hsent ((ho.up_suffix d).subset hmem)
          exact hup hmem
        refine ⟨⟨c, hsent, ?_⟩, ?_⟩
        · simp only [Function.update_apply]
          split
          · rename_i hc
            rw [hc, hd] at hup
            exact fun hrest => hup (List.mem_cons_of_mem _ hrest)
          · exact hup
        · intro e he
          rcases List.mem_append.mp he with hq | hnew
          · exact hq
          · split at hnew
            · exact absurd (List.mem_singleton.mp hnew) hne
            · cases hnew
  | deliver n accept =>
      simp only [Broker.step, Broker.deliver, Option.bind_eq_some_iff] at hstep
      obtain ⟨d, -, hstep⟩ := hstep
      split at hstep
      · cases hstep
      · obtain rfl := Option.some.inj hstep
        exact ⟨hold, fun _ hq => hq⟩

omit [DecidableEq N] [DecidableEq C] in
/-- What is on its way to a node from another one is not seen yet. -/
theorem Orderly.not_seen_of_inbox [DecidableEq K] {b : Broker N C K} (ho : b.Orderly)
    {m n : N} {c : C} {k : K} (hc : b.opener c = some m) (hne : n ≠ m)
    (hk : k ∈ b.sent c) (hinbox : k ∈ b.inbox n) : k ∉ b.seen n := by
  intro hseen
  have horder := (ho.ordered m n c hc hne).seen_sublist
  rw [List.filter_append] at horder
  have hnodup := (ho.apart.nodup (.inr c)).sublist horder
  refine (List.nodup_append.mp hnodup).2.2 k ?_ k ?_ rfl
  · simpa using ⟨hseen, hk⟩
  · simpa using ⟨hinbox, hk⟩

end Broker

end CommonChat.Foundation
