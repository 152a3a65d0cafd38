import CommonChat.Core.Codec
import CommonChat.Frontend.Clients
import CommonChat.Frontend.Exports

/-!
# Calls into the core

The page calls the exported functions in any order, on identities that it was given
and has not freed.  Each call gives what the core computes on the encoded strings.
What is handed out afterwards is what was handed out before, and a record and a text
for each identity that the page has.
-/

namespace CommonChat.Frontend

open CommonChat.Foundation
open CommonChat.Core

/-- A call of the page; identities are numbered in the order in which it got them. -/
inductive Call where
  | createIdentity (random : PrivateKey)
  | identityFromPrivateHex (hexStr : JsString)
  | pubKey (object : Nat)
  | exportPrivateHex (object : Nat)
  | sign (object : Nat) (message : JsString)
  | verifySignature (pubKeyHex message signatureHex : JsString)
  | free (object : Nat)

inductive Answer where
  | object (value : Except JsError Nat)
  | text (value : JsString)
  | verified (value : Except JsError Bool)
  | freed

def live {α : Type*} (objects : List (Option α)) (i : Nat) : Option α := objects[i]?.join

namespace Call

def answer (E : Ed25519) (objects : List (Option (CommonwareIdentity E))) :
    Call → Option (Answer × List (Option (CommonwareIdentity E)))
  | .createIdentity random =>
      some (.object (.ok objects.length), objects ++ [some (Core.createIdentity E random)])
  | .identityFromPrivateHex hexStr =>
      match Core.identityFromPrivateHex E (encodeUtf8 hexStr) with
      | .error e => some (.object (.error e), objects)
      | .ok identity => some (.object (.ok objects.length), objects ++ [some identity])
  | .pubKey i => do
      let identity ← live objects i
      some (.text (ofAscii identity.pubKey), objects)
  | .exportPrivateHex i => do
      let identity ← live objects i
      some (.text (ofAscii identity.exportPrivateHex), objects)
  | .sign i message => do
      let identity ← live objects i
      some (.text (ofAscii (identity.sign (encodeUtf8 message))), objects)
  | .verifySignature pubKeyHex message signatureHex =>
      some (.verified (Core.verifySignature E (encodeUtf8 pubKeyHex) (encodeUtf8 message)
        (encodeUtf8 signatureHex)), objects)
  | .free i => do
      let _ ← live objects i
      some (.freed, objects.set i none)

def answers (E : Ed25519) (objects : List (Option (CommonwareIdentity E))) :
    List Call → Option (List Answer × List (Option (CommonwareIdentity E)))
  | [] => some ([], objects)
  | c :: rest => do
      let (answer, objects) ← c.answer E objects
      let (answers, objects) ← answers E objects rest
      some (answer :: answers, objects)

def strings : Call → List JsString
  | .sign _ message => [message]
  | .identityFromPrivateHex hexStr => [hexStr]
  | .verifySignature pubKeyHex message signatureHex => [pubKeyHex, message, signatureHex]
  | _ => []

def Short (call : Call) : Prop := ∀ s ∈ call.strings, 3 * s.length < 2 ^ 32

/-- A bound on the bytes that a call asks for: its strings, its result and a record. -/
def cost (boxSize : Nat) (call : Call) : Nat :=
  7 * (call.strings.map List.length).sum + (128 + boxSize)

end Call

namespace Glue

variable {σ : Type} (R : Runtime σ) (E : Ed25519)

def call (g : Glue σ) (objects : List (Option Nat)) :
    Call → Option (Answer × Glue σ × List (Option Nat))
  | .createIdentity random => do
      let (ptr, g) ← g.createIdentity R E random
      some (.object (.ok objects.length), g, objects ++ [some ptr])
  | .identityFromPrivateHex hexStr => do
      let (ret, g) ← g.identityFromPrivateHex R E hexStr
      match ret with
      | .error e => some (.object (.error e), g, objects)
      | .ok ptr => some (.object (.ok objects.length), g, objects ++ [some ptr])
  | .pubKey i => do
      let ptr ← live objects i
      let (text, g) ← g.pubKey R E ptr
      some (.text text, g, objects)
  | .exportPrivateHex i => do
      let ptr ← live objects i
      let (text, g) ← g.exportPrivateHex R E ptr
      some (.text text, g, objects)
  | .sign i message => do
      let ptr ← live objects i
      let (text, g) ← g.sign R E ptr message
      some (.text text, g, objects)
  | .verifySignature pubKeyHex message signatureHex => do
      let (ret, g) ← g.verifySignature R E pubKeyHex message signatureHex
      some (.verified ret, g, objects)
  | .free i => do
      let ptr ← live objects i
      let g ← g.freeIdentity R ptr
      some (.freed, g, objects.set i none)

def calls (g : Glue σ) (objects : List (Option Nat)) :
    List Call → Option (List Answer × Glue σ × List (Option Nat))
  | [] => some ([], g, objects)
  | c :: rest => do
      let (answer, g, objects) ← g.call R E objects c
      let (answers, g, objects) ← calls g objects rest
      some (answer :: answers, g, objects)

end Glue

/-! ## The objects of the page -/

theorem live_map {α β : Type*} (f : α → β) (objects : List (Option α)) (i : Nat) :
    live (objects.map (Option.map f)) i = (live objects i).map f := by
  unfold live
  rw [List.getElem?_map]
  cases objects[i]? with
  | none => rfl
  | some o => rfl

theorem exists_live_of_bind {α β γ : Type*} {f : α → β} {objects : List (Option α)} {i : Nat}
    {k : β → Option γ} {c : γ}
    (h : (live (objects.map (Option.map f)) i).bind k = some c) :
    ∃ o, live objects i = some o ∧ k (f o) = some c := by
  rw [live_map] at h
  obtain ⟨b, hb, hc⟩ := Option.bind_eq_some_iff.mp h
  obtain ⟨o, ho, rfl⟩ := Option.map_eq_some_iff.mp hb
  exact ⟨o, ho, hc⟩

theorem exists_split_of_live {α : Type*} {objects : List (Option α)} {i : Nat} {o : α}
    (h : live objects i = some o) :
    ∃ before after, objects = before ++ some o :: after ∧
      objects.set i none = before ++ none :: after := by
  have hget : objects[i]? = some (some o) := Option.join_eq_some_iff.mp h
  obtain ⟨hi, hval⟩ := List.getElem?_eq_some_iff.mp hget
  refine ⟨objects.take i, objects.drop (i + 1), ?_, List.set_eq_take_append_cons_drop .. |>.trans
    (if_pos hi)⟩
  rw [← hval, ← List.drop_eq_getElem_cons hi, List.take_append_drop]

namespace Boxed

variable {σ : Type} {E : Ed25519} (R : Runtime σ)

def heldBy (objects : List (Option (Boxed E))) : List Glue.Held :=
  objects.flatMap fun o => (o.map (Boxed.held R)).getD []

theorem heldBy_split (before after : List (Option (Boxed E))) (o : Option (Boxed E)) :
    heldBy R (before ++ o :: after) =
      heldBy R before ++ ((o.map (Boxed.held R)).getD [] ++ heldBy R after) := by
  simp [heldBy]

theorem heldBy_concat (objects : List (Option (Boxed E))) (o : Boxed E) :
    (o.held R ++ heldBy R objects).Perm (heldBy R (objects ++ [some o])) := by
  rw [heldBy_split]
  simpa [heldBy] using List.perm_append_comm

theorem held_subset_of_live {objects : List (Option (Boxed E))} {i : Nat} {o : Boxed E}
    (h : live objects i = some o) : o.held R ⊆ heldBy R objects := by
  obtain ⟨before, after, rfl, -⟩ := exists_split_of_live h
  intro x hx
  rw [heldBy_split]
  exact List.mem_append_right _ (List.mem_append_left _ hx)

end Boxed

namespace Glue

open Boxed

variable {σ : Type} {R : Runtime σ} {E : Ed25519}

theorem Holding.call (hR : R.Lawful) {g g' : Glue σ} {boxes : List (Option (Boxed E))}
    {k : Nat} (h : g.Holding R g' (heldBy R boxes) k) {c : Call} (hshort : c.Short)
    (hk : c.cost R.boxSize ≤ k) {answer : Answer}
    {objects : List (Option (CommonwareIdentity E))}
    (hanswer : c.answer E (boxes.map (Option.map identity)) = some (answer, objects)) :
    ∃ g'' boxes', g'.call R E (boxes.map (Option.map start)) c =
        some (answer, g'', boxes'.map (Option.map start)) ∧
      boxes'.map (Option.map identity) = objects ∧
      g.Holding R g'' (heldBy R boxes') (k - c.cost R.boxSize) := by
  cases c with
  | createIdentity random =>
      simp only [Call.answer, Option.some.injEq, Prod.mk.injEq] at hanswer
      obtain ⟨rfl, rfl⟩ := hanswer
      simp only [Call.cost] at hk ⊢
      obtain ⟨o, g'', hrun, ho, h''⟩ := h.createIdentity hR (E := E) random (by omega)
      refine ⟨g'', boxes ++ [some o], ?_, ?_, ?_⟩
      · simp [Glue.call, hrun]
      · simp [ho]
      · exact (h''.perm (heldBy_concat R boxes o)).weaken hR (by omega)
  | identityFromPrivateHex hexStr =>
      have hlt := hshort hexStr (by simp [Call.strings])
      simp only [Call.cost, Call.strings, List.map_cons, List.map_nil, List.sum_cons,
        List.sum_nil, Nat.add_zero] at hk ⊢
      simp only [Call.answer] at hanswer
      cases hcore : Core.identityFromPrivateHex E (encodeUtf8 hexStr) with
      | error e =>
          rw [hcore] at hanswer
          cases hanswer
          obtain ⟨g'', hrun, h''⟩ := h.identityFromPrivateHex_error hR hlt (by omega) hcore
          refine ⟨g'', boxes, ?_, rfl, h''.weaken hR (by omega)⟩
          simp only [Glue.call, hrun, Option.bind_eq_bind, Option.bind_some]
      | ok identity =>
          rw [hcore] at hanswer
          cases hanswer
          obtain ⟨o, g'', hrun, ho, h''⟩ := h.identityFromPrivateHex_ok hR hlt (by omega)
            hcore
          refine ⟨g'', boxes ++ [some o], ?_, ?_, ?_⟩
          · simp [Glue.call, hrun]
          · simp [ho]
          · exact (h''.perm (heldBy_concat R boxes o)).weaken hR (by omega)
  | pubKey i =>
      obtain ⟨o, ho, hanswer⟩ := exists_live_of_bind hanswer
      cases hanswer
      simp only [Call.cost] at hk ⊢
      obtain ⟨g'', hrun, h''⟩ := h.pubKey hR (held_subset_of_live R ho) (by omega)
      refine ⟨g'', boxes, ?_, rfl, h''.weaken hR (by omega)⟩
      simp only [Glue.call, live_map, ho, Option.map_some, hrun, Option.bind_eq_bind,
        Option.bind_some]
  | exportPrivateHex i =>
      obtain ⟨o, ho, hanswer⟩ := exists_live_of_bind hanswer
      cases hanswer
      simp only [Call.cost] at hk ⊢
      obtain ⟨g'', hrun, h''⟩ := h.exportPrivateHex hR (held_subset_of_live R ho) (by omega)
      refine ⟨g'', boxes, ?_, rfl, h''.weaken hR (by omega)⟩
      simp only [Glue.call, live_map, ho, Option.map_some, hrun, Option.bind_eq_bind,
        Option.bind_some]
  | sign i message =>
      obtain ⟨o, ho, hanswer⟩ := exists_live_of_bind hanswer
      cases hanswer
      have hlt := hshort message (by simp [Call.strings])
      simp only [Call.cost, Call.strings, List.map_cons, List.map_nil, List.sum_cons,
        List.sum_nil, Nat.add_zero] at hk ⊢
      obtain ⟨g'', hrun, h''⟩ := h.sign hR (held_subset_of_live R ho) hlt (by omega)
      refine ⟨g'', boxes, ?_, rfl, h''.weaken hR (by omega)⟩
      simp only [Glue.call, live_map, ho, Option.map_some, hrun, Option.bind_eq_bind,
        Option.bind_some]
  | verifySignature pubKeyHex message signatureHex =>
      cases hanswer
      have hlt : ∀ s ∈ [pubKeyHex, message, signatureHex], 3 * s.length < 2 ^ 32 := hshort
      simp only [List.forall_mem_cons] at hlt
      simp only [Call.cost, Call.strings, List.map_cons, List.map_nil, List.sum_cons,
        List.sum_nil, Nat.add_zero] at hk ⊢
      obtain ⟨g'', hrun, h''⟩ := h.verifySignature hR (E := E) hlt.1 hlt.2.1 hlt.2.2.1
        (by omega)
      refine ⟨g'', boxes, ?_, rfl, h''.weaken hR (by omega)⟩
      simp only [Glue.call, hrun, Option.bind_eq_bind, Option.bind_some]
  | free i =>
      obtain ⟨o, ho, hanswer⟩ := exists_live_of_bind hanswer
      cases hanswer
      obtain ⟨before, after, hsplit, hset⟩ := exists_split_of_live ho
      rw [hsplit, heldBy_split] at h
      obtain ⟨g'', hrun, h''⟩ := h.freeIdentity hR (heldBy R before)
      refine ⟨g'', boxes.set i none, ?_, ?_, ?_⟩
      · simp [Glue.call, live_map, ho, hrun]
      · simp
      · rw [hset, heldBy_split]
        exact h''.weaken hR (by omega)

theorem Holding.calls (hR : R.Lawful) {g g' : Glue σ} {boxes : List (Option (Boxed E))}
    {k : Nat} (h : g.Holding R g' (heldBy R boxes) k) {cs : List Call}
    (hshort : ∀ c ∈ cs, c.Short) (hk : (cs.map (Call.cost R.boxSize)).sum ≤ k)
    {answers : List Answer} {objects : List (Option (CommonwareIdentity E))}
    (hanswers : Call.answers E (boxes.map (Option.map identity)) cs =
      some (answers, objects)) :
    ∃ g'' boxes', g'.calls R E (boxes.map (Option.map start)) cs =
        some (answers, g'', boxes'.map (Option.map start)) ∧
      boxes'.map (Option.map identity) = objects ∧
      g.Holding R g'' (heldBy R boxes') (k - (cs.map (Call.cost R.boxSize)).sum) := by
  induction cs generalizing g' boxes k answers with
  | nil =>
      cases hanswers
      exact ⟨g', boxes, rfl, rfl, h⟩
  | cons c cs ih =>
      simp only [Call.answers, Option.bind_eq_bind, Option.bind_eq_some_iff] at hanswers
      obtain ⟨⟨answer, objects₁⟩, hfirst, ⟨rest, objects₂⟩, hrest, hanswers⟩ := hanswers
      cases hanswers
      simp only [List.map_cons, List.sum_cons] at hk ⊢
      obtain ⟨hc, hcs⟩ := List.forall_mem_cons.mp hshort
      obtain ⟨g₁, boxes₁, hcall, rfl, h₁⟩ := h.call hR hc (by omega) hfirst
      obtain ⟨g₂, boxes₂, hcalls, hobjects, h₂⟩ := ih h₁ hcs (by omega) hrest
      refine ⟨g₂, boxes₂, ?_, hobjects, ?_⟩
      · simp only [Glue.calls, hcall, hcalls, Option.bind_eq_bind, Option.bind_some]
      · rw [← Nat.sub_sub]
        exact h₂

end Glue

end CommonChat.Frontend
