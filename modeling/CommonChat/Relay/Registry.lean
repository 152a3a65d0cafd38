import CommonChat.Relay.Server

/-!
# The two indexes of the relay

`Routes` reads `peerToSockets` and `RegisteredAs` reads `socketToPeer`.  The
registry is consistent when the two relations coincide on connected sockets and
no peer keeps an empty set.  Registering a socket again under another peer
overwrites its registration but leaves its old route behind, so consistency is
kept by the runs in which every socket keeps its peer.
-/

namespace CommonChat.Relay.Server

open CommonChat.Foundation

def Routes (r : Server) (peer : JsKey) (socket : SocketId) : Prop :=
  ∃ set, r.peerToSockets.get peer = some set ∧ socket ∈ set

def RegisteredAs (r : Server) (socket : SocketId) (peer : JsKey) : Prop :=
  ∃ info, r.socketToPeer.get socket = some info ∧ info.key = peer

structure Consistent (r : Server) : Prop where
  inverse : ∀ socket peer, r.Routes peer socket ↔ r.RegisteredAs socket peer
  registered_connected : ∀ socket peer,
    r.RegisteredAs socket peer → socket ∈ r.connected
  routed_connected : ∀ peer socket, r.Routes peer socket → socket ∈ r.connected
  nonempty : ∀ peer set, r.peerToSockets.get peer = some set → set.size ≠ 0

/-! ## The two relations after each handler -/

theorem RegisteredAs.unique {r : Server} {socket : SocketId} {p q : JsKey}
    (hp : r.RegisteredAs socket p) (hq : r.RegisteredAs socket q) : p = q := by
  obtain ⟨info, hget, rfl⟩ := hp
  obtain ⟨info', hget', rfl⟩ := hq
  rw [hget] at hget'
  cases hget'
  rfl

theorem routes_enroll_iff (r : Server) (socket : SocketId) (info : PeerInfo)
    (peer : JsKey) (s : SocketId) :
    (r.enroll socket info).Routes peer s ↔
      (peer = info.key ∧ s = socket) ∨ r.Routes peer s := by
  simp only [Routes, enroll, InsertionMap.get_set]
  by_cases hpeer : peer = info.key
  · subst hpeer
    cases hget : r.peerToSockets.get info.key with
    | none => simp [ensureSet, hget]
    | some set => simp [ensureSet, hget]
  · simp [hpeer]

theorem registeredAs_enroll_iff (r : Server) (socket : SocketId)
    (info : PeerInfo) (s : SocketId) (peer : JsKey) :
    (r.enroll socket info).RegisteredAs s peer ↔
      if s = socket then peer = info.key else r.RegisteredAs s peer := by
  simp only [RegisteredAs, enroll, InsertionMap.get_set]
  by_cases hs : s = socket
  · simp [hs, eq_comm]
  · simp [hs]

theorem socketToPeer_disconnect (r : Server) (socket : SocketId) :
    (r.disconnect socket).1.socketToPeer = r.socketToPeer.delete socket := by
  unfold disconnect
  cases r.socketToPeer.get socket <;> rfl

theorem forall_info_enroll {P : SocketId → PeerInfo → Prop} {r : Server}
    {socket : SocketId} {info : PeerInfo}
    (hold : ∀ s info, r.socketToPeer.get s = some info → P s info)
    (hnew : P socket info) :
    ∀ s info', (r.enroll socket info).socketToPeer.get s = some info' →
      P s info' := by
  intro s info' hinfo
  simp only [enroll, InsertionMap.get_set] at hinfo
  split at hinfo
  · rename_i hs
    cases hinfo
    exact hs ▸ hnew
  · exact hold s info' hinfo

theorem forall_info_register {P : SocketId → PeerInfo → Prop} {r r' : Server}
    {socket : SocketId} {data : JsValue} {emits : List Emit}
    (h : r.register socket data = .ok (r', emits))
    (hold : ∀ s info, r.socketToPeer.get s = some info → P s info)
    (hnew : ∀ name, (claimedPeer data).truthy = true →
      registeredName (claimedPeer data) (claimedName data) = .ok name →
      P socket ⟨claimedPeer data, r.allocated, name⟩) :
    ∀ s info, r'.socketToPeer.get s = some info → P s info := by
  rcases register_cases h with ⟨-, rfl, -⟩ | ⟨name, list, htruthy, hname, rfl, -⟩
  · exact hold
  · exact forall_info_enroll hold (hnew name htruthy hname)

theorem forall_info_disconnect {P : SocketId → PeerInfo → Prop} {r : Server}
    (socket : SocketId)
    (hold : ∀ s info, r.socketToPeer.get s = some info → P s info) :
    ∀ s info, (r.disconnect socket).1.socketToPeer.get s = some info → P s info := by
  intro s info hinfo
  simp only [socketToPeer_disconnect, InsertionMap.get_delete] at hinfo
  split at hinfo
  · cases hinfo
  · exact hold s info hinfo

theorem registeredAs_disconnect_iff (r : Server) (socket s : SocketId)
    (peer : JsKey) :
    (r.disconnect socket).1.RegisteredAs s peer ↔
      s ≠ socket ∧ r.RegisteredAs s peer := by
  simp only [RegisteredAs, socketToPeer_disconnect, InsertionMap.get_delete]
  by_cases hs : s = socket <;> simp [hs]

theorem connected_disconnect (r : Server) (socket : SocketId) :
    (r.disconnect socket).1.connected = r.connected.delete socket := by
  unfold disconnect
  cases r.socketToPeer.get socket <;> rfl

theorem unroute_get (r : Server) (socket : SocketId) (info : PeerInfo)
    (peer : JsKey) (s : SocketId) :
    (∃ set, (r.unroute socket info).get peer = some set ∧ s ∈ set) ↔
      r.Routes peer s ∧ ¬ (peer = info.key ∧ s = socket) := by
  unfold unroute Routes
  cases hget : r.peerToSockets.get info.key with
  | none =>
      simp only
      constructor
      · rintro ⟨set, hset, hmem⟩
        refine ⟨⟨set, hset, hmem⟩, ?_⟩
        rintro ⟨rfl, -⟩
        rw [hget] at hset
        cases hset
      · exact fun h => h.1
  | some set =>
      simp only
      by_cases hpeer : peer = info.key
      · subst hpeer
        split
        · rename_i hempty
          have hnone := (InsertionSet.size_eq_zero_iff _).mp hempty s
          simp only [InsertionSet.mem_delete, not_and] at hnone
          simp only [InsertionMap.get_delete, if_true, reduceCtorEq,
            false_and, exists_false, hget, Option.some.injEq,
            exists_eq_left', true_and, false_iff, not_and, not_not]
          intro hmem
          by_contra hne
          exact hnone hne hmem
        · simp [hget, and_comm]
      · split <;> simp [hpeer]

theorem routes_disconnect_iff (r : Server) (socket s : SocketId)
    (peer : JsKey) :
    (r.disconnect socket).1.Routes peer s ↔
      r.Routes peer s ∧ ¬ (r.RegisteredAs socket peer ∧ s = socket) := by
  cases hget : r.socketToPeer.get socket with
  | none =>
      have hsame : (r.disconnect socket).1.Routes peer s ↔ r.Routes peer s := by
        simp [disconnect, Routes, hget]
      rw [hsame]
      simp [RegisteredAs, hget]
  | some info =>
      have hunroute : (r.disconnect socket).1.peerToSockets =
          r.unroute socket info := by
        simp [disconnect, hget]
      rw [Routes, hunroute, unroute_get]
      simp [RegisteredAs, hget, eq_comm]

theorem nonempty_disconnect {r : Server} (socket : SocketId)
    (h : ∀ peer set, r.peerToSockets.get peer = some set → set.size ≠ 0)
    (peer : JsKey) (set : InsertionSet SocketId)
    (hset : (r.disconnect socket).1.peerToSockets.get peer = some set) :
    set.size ≠ 0 := by
  cases hget : r.socketToPeer.get socket with
  | none =>
      simp only [disconnect, hget] at hset
      exact h peer set hset
  | some info =>
      simp only [disconnect, hget, unroute] at hset
      cases hold : r.peerToSockets.get info.key with
      | none =>
          simp only [hold] at hset
          exact h peer set hset
      | some old =>
          simp only [hold] at hset
          split at hset
          · rw [InsertionMap.get_delete] at hset
            split at hset
            · cases hset
            · exact h peer set hset
          · rename_i hsize
            rw [InsertionMap.get_set] at hset
            split at hset
            · cases hset
              exact hsize
            · exact h peer set hset

theorem nonempty_enroll {r : Server} (socket : SocketId) (info : PeerInfo)
    (h : ∀ peer set, r.peerToSockets.get peer = some set → set.size ≠ 0)
    (peer : JsKey) (set : InsertionSet SocketId)
    (hset : (r.enroll socket info).peerToSockets.get peer = some set) :
    set.size ≠ 0 := by
  simp only [enroll, InsertionMap.get_set] at hset
  split at hset
  · cases hset
    rw [Ne, InsertionSet.size_eq_zero_iff]
    exact fun hnone => hnone socket (InsertionSet.mem_add.mpr (.inl rfl))
  · exact h peer set hset

/-! ## Consistency -/

theorem consistent_empty : empty.Consistent where
  inverse socket peer := by simp [Routes, RegisteredAs, empty]
  registered_connected socket peer := by simp [RegisteredAs, empty]
  routed_connected peer socket := by simp [Routes, empty]
  nonempty peer set := by simp [empty]

theorem Consistent.connect {r : Server} (h : r.Consistent) (socket : SocketId) :
    (r.connect socket).Consistent where
  inverse := h.inverse
  registered_connected s peer hreg :=
    InsertionSet.mem_add.mpr (.inr (h.registered_connected s peer hreg))
  routed_connected peer s hroute :=
    InsertionSet.mem_add.mpr (.inr (h.routed_connected peer s hroute))
  nonempty := h.nonempty

theorem Consistent.enroll {r : Server} (h : r.Consistent) {socket : SocketId}
    (hconn : socket ∈ r.connected) {info : PeerInfo}
    (hkeep : ∀ peer, r.RegisteredAs socket peer → peer = info.key) :
    (r.enroll socket info).Consistent := by
  have hinverse : ∀ s peer, (r.enroll socket info).Routes peer s ↔
      (r.enroll socket info).RegisteredAs s peer := by
    intro s peer
    rw [routes_enroll_iff, registeredAs_enroll_iff]
    by_cases hs : s = socket
    · subst hs
      rw [if_pos rfl]
      constructor
      · rintro (⟨rfl, -⟩ | hroute)
        · rfl
        · exact hkeep peer ((h.inverse s peer).mp hroute)
      · rintro rfl
        exact .inl ⟨rfl, rfl⟩
    · rw [if_neg hs, ← h.inverse s peer]
      simp [hs]
  have hregistered : ∀ s peer, (r.enroll socket info).RegisteredAs s peer →
      s ∈ (r.enroll socket info).connected := by
    intro s peer hreg
    rw [registeredAs_enroll_iff] at hreg
    split at hreg
    · rename_i hs
      subst hs
      exact hconn
    · exact h.registered_connected s peer hreg
  exact ⟨hinverse, hregistered, fun peer s hroute =>
    hregistered s peer ((hinverse s peer).mp hroute),
    nonempty_enroll socket info h.nonempty⟩

theorem Consistent.disconnect {r : Server} (h : r.Consistent)
    (socket : SocketId) : (r.disconnect socket).1.Consistent := by
  have hinverse : ∀ s peer, (r.disconnect socket).1.Routes peer s ↔
      (r.disconnect socket).1.RegisteredAs s peer := by
    intro s peer
    rw [routes_disconnect_iff, registeredAs_disconnect_iff, h.inverse s peer]
    constructor
    · rintro ⟨hreg, hother⟩
      refine ⟨?_, hreg⟩
      rintro rfl
      exact hother ⟨hreg, rfl⟩
    · rintro ⟨hs, hreg⟩
      exact ⟨hreg, fun hboth => hs hboth.2⟩
  have hregistered : ∀ s peer, (r.disconnect socket).1.RegisteredAs s peer →
      s ∈ (r.disconnect socket).1.connected := by
    intro s peer hreg
    rw [registeredAs_disconnect_iff] at hreg
    rw [connected_disconnect, InsertionSet.mem_delete]
    exact ⟨hreg.1, h.registered_connected s peer hreg.2⟩
  exact ⟨hinverse, hregistered,
    fun peer s hroute => hregistered s peer ((hinverse s peer).mp hroute),
    nonempty_disconnect socket h.nonempty⟩

/-! ## Runs -/

def Action.hasStrings : Action → Bool
  | .register _ data =>
      match data.field (js "peerId"), data.field (js "displayName") with
      | .str peerId, .str _ => peerId ≠ []
      | _, _ => false
  | _ => true

/-- A socket that is already registered only registers again under the same peer. -/
def keepsPeer (r : Server) : Action → Bool
  | .register socket data =>
      match r.socketToPeer.get socket with
      | none => true
      | some info => info.key = (claimedPeer data).key r.allocated
  | _ => true

theorem keepsPeer_register {r : Server} {socket : SocketId} {data : JsValue}
    (h : r.keepsPeer (.register socket data) = true) {peer : JsKey}
    (hreg : r.RegisteredAs socket peer) :
    peer = (claimedPeer data).key r.allocated := by
  obtain ⟨info, hget, rfl⟩ := hreg
  simpa [keepsPeer, hget] using h

theorem Consistent.step {r r' : Server} {a : Action} (h : r.Consistent)
    (hkeep : r.keepsPeer a = true) (hstep : r.step a = some r') : r'.Consistent := by
  cases a with
  | connect socket =>
      simp only [Server.step] at hstep
      split at hstep
      · cases hstep
      · cases hstep
        exact h.connect socket
  | register socket data =>
      simp only [Server.step] at hstep
      split at hstep
      · rename_i hconn
        split at hstep
        · rename_i next emits hok
          cases hstep
          rcases register_cases hok with ⟨-, rfl, -⟩ | ⟨name, list, -, -, rfl, -, -⟩
          · exact h
          · exact h.enroll hconn fun peer hreg => keepsPeer_register hkeep hreg
        · cases hstep
      · cases hstep
  | message socket payload =>
      simp only [Server.step] at hstep
      split at hstep
      · cases hstep
        exact h
      · cases hstep
  | disconnect socket =>
      simp only [Server.step] at hstep
      split at hstep
      · cases hstep
        exact h.disconnect socket
      · cases hstep

/-- The two maps stay inverse in every run in which sockets keep their peers. -/
theorem consistent_of_keepsPeer {r : Server}
    (hr : system.Reach (fun r a => a.hasStrings = true ∧ r.keepsPeer a = true) r) :
    r.Consistent :=
  hr.invariant consistent_empty fun _ _ _ _ h hok hstep => h.step hok.2 hstep

def registration (peerId displayName : JsString) : JsValue :=
  .obj [(js "peerId", .str peerId), (js "displayName", .str displayName)]

theorem consistent_after_second_tab_leaves :
    ∃ r : Server,
      system.Reach (fun r a => a.hasStrings = true ∧ r.keepsPeer a = true) r ∧
        r.peerToSockets.has (.str (js "alice")) = true ∧ r.Consistent := by
  obtain ⟨r, hr, hcheck⟩ := System.exists_reach_of_exec
    (system) (fun r a => a.hasStrings = true ∧ r.keepsPeer a = true)
    (fun r a => a.hasStrings && r.keepsPeer a)
    ([.connect 0, .register 0 (registration (js "alice") (js "A")),
      .connect 1, .register 1 (registration (js "alice") (js "A")),
      .register 1 (registration (js "alice") (js "B")), .disconnect 0])
    (fun r => r.peerToSockets.has (.str (js "alice")))
    (fun r a h => by simpa using h) (by decide)
  exact ⟨r, hr, hcheck, consistent_of_keepsPeer hr⟩

theorem not_consistent_of_second_registration :
    ¬ ∀ r : Server, system.Reach (fun _ a => a.hasStrings = true) r →
      r.Consistent := by
  intro hall
  obtain ⟨r, hr, hcheck⟩ := System.exists_reach_of_exec
    (system) (fun _ a => a.hasStrings = true)
    (fun _ a => a.hasStrings)
    ([.connect 0, .register 0 (registration (js "alice") (js "A")),
      .register 0 (registration (js "bob") (js "A"))])
    (fun r =>
      ((r.peerToSockets.get (.str (js "alice"))).any fun set => 0 ∈ set) &&
      ((r.socketToPeer.get 0).any fun info => info.key = .str (js "bob")))
    (fun _ _ h => h) (by decide)
  simp only [Bool.and_eq_true, Option.any_eq_true, decide_eq_true_eq] at hcheck
  have halice : r.RegisteredAs 0 (.str (js "alice")) :=
    ((hall r hr).inverse 0 _).mp hcheck.1
  have hbob : r.RegisteredAs 0 (.str (js "bob")) := hcheck.2
  exact absurd (halice.unique hbob) (by decide)

end CommonChat.Relay.Server
