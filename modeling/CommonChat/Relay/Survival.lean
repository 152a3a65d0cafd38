import CommonChat.Relay.Registry

/-!
# What the relay survives

An exception in a handler ends the process.  `handle` is the dispatch of one
event, with the exception as an error.  Every name the relay keeps is truthy, so
the scan of `getOnlineList` calls no method on what earlier registrations left
behind; what can raise is the two string methods that `register` calls on its
own argument.
-/

namespace CommonChat.Relay.Server

open CommonChat.Foundation

def handle (r : Server) : Action → Except TypeError (Server × List Emit)
  | .connect socket => .ok (r.connect socket, [])
  | .register socket data => r.register socket data
  | .message _ payload => .ok (r, r.message payload)
  | .disconnect socket => .ok (r.disconnect socket)

def Action.socket : Action → SocketId
  | .connect socket | .register socket _ | .message socket _
  | .disconnect socket => socket

theorem handle_of_step {r r' : Server} {a : Action} (h : r.step a = some r') :
    ∃ emits, r.handle a = .ok (r', emits) := by
  cases a with
  | connect socket =>
      simp only [step] at h
      split at h
      · cases h
      · cases h
        exact ⟨_, rfl⟩
  | register socket data =>
      simp only [step] at h
      split at h
      · split at h
        · rename_i next emits hok
          cases h
          exact ⟨emits, hok⟩
        · cases h
      · cases h
  | message socket payload =>
      simp only [step] at h
      split at h
      · cases h
        exact ⟨_, rfl⟩
      · cases h
  | disconnect socket =>
      simp only [step] at h
      split at h
      · cases h
        exact ⟨_, rfl⟩
      · cases h

/-! ## Names -/

def Named (r : Server) : Prop :=
  ∀ s info, r.socketToPeer.get s = some info → info.displayName.truthy = true

theorem truthy_of_registeredName {peerId displayName name : JsValue}
    (hpeer : peerId.truthy = true)
    (h : registeredName peerId displayName = .ok name) : name.truthy = true := by
  unfold registeredName at h
  obtain ⟨trimmed, -, h⟩ := except_bind_eq_ok.mp h
  split at h
  · rename_i htrimmed
    cases h
    exact htrimmed
  · exact JsValue.truthy_of_sliceCall hpeer (by decide) h

theorem Named.handle {r r' : Server} {a : Action} {emits : List Emit}
    (h : r.Named) (hok : r.handle a = .ok (r', emits)) : r'.Named := by
  cases a with
  | connect socket =>
      cases hok
      exact h
  | register socket data =>
      exact forall_info_register hok h fun _ hpeer hname =>
        truthy_of_registeredName hpeer hname
  | message socket payload =>
      cases hok
      exact h
  | disconnect socket =>
      have hnext : (r.disconnect socket).1 = r' := congrArg Prod.fst (Except.ok.inj hok)
      subst hnext
      exact forall_info_disconnect socket h

theorem named_empty : empty.Named := nofun

theorem named_of_reach {ok : Server → Action → Prop} {r : Server}
    (hr : system.Reach ok r) : r.Named := by
  refine hr.invariant named_empty ?_
  intro r a r' _ h _ hstep
  obtain ⟨emits, hok⟩ := handle_of_step hstep
  exact h.handle hok

theorem exists_getOnlineListFrom {entries : List (SocketId × PeerInfo)}
    (h : ∀ s info, (s, info) ∈ entries → info.displayName.truthy = true)
    (exclude : JsKey) (seen : List JsKey) :
    ∃ list, getOnlineListFrom exclude seen entries = .ok list := by
  induction entries generalizing seen with
  | nil => exact ⟨[], rfl⟩
  | cons entry rest ih =>
      obtain ⟨s, info⟩ := entry
      have hrest : ∀ seen', ∃ list, getOnlineListFrom exclude seen' rest = .ok list :=
        ih fun s' info' hmem => h s' info' (List.mem_cons_of_mem _ hmem)
      rw [getOnlineListFrom]
      split
      · exact hrest seen
      split
      · exact hrest seen
      obtain ⟨list, hlist⟩ := hrest (info.key :: seen)
      have hname : listedName info = .ok info.displayName :=
        if_pos (h s info List.mem_cons_self)
      exact ⟨peerObject info.peerId info.displayName :: list, by
        rw [hname, hlist]
        rfl⟩

theorem Named.exists_getOnlineList {r : Server} (h : r.Named) (exclude : JsKey) :
    ∃ list, r.getOnlineList exclude = .ok list :=
  exists_getOnlineListFrom
    (fun s info hmem => h s info ((r.socketToPeer.mem_entries_iff s info).mp hmem))
    exclude []

/-! ## Arguments -/

/--
The register arguments on which both string methods exist: the peer id is falsy,
or the display name is a string or falsy and is not blank unless the peer id has
`slice`.
-/
def readable (data : JsValue) : Bool :=
  !(claimedPeer data).truthy ||
    match (claimedName data).orElse (.str []) with
    | .str name => trim name ≠ [] || (claimedPeer data).hasSlice
    | _ => false

def Action.isReadable : Action → Bool
  | .register _ data => readable data
  | _ => true

theorem exists_registeredName_iff (peerId displayName : JsValue) :
    (∃ name, registeredName peerId displayName = .ok name) ↔
      ∃ text, displayName.orElse (.str []) = .str text ∧
        (trim text ≠ [] ∨ peerId.hasSlice = true) := by
  unfold registeredName
  constructor
  · rintro ⟨name, h⟩
    obtain ⟨trimmed, htrim, h⟩ := except_bind_eq_ok.mp h
    obtain ⟨text, htext, rfl⟩ := JsValue.trimCall_eq_ok htrim
    refine ⟨text, htext, ?_⟩
    split at h
    · rename_i htruthy
      exact .inl ((JsValue.truthy_str _).mp htruthy)
    · exact .inr ((JsValue.sliceCall_eq_ok_iff _ _ _).mp ⟨name, h⟩)
  · rintro ⟨text, htext, hname⟩
    rw [htext]
    by_cases hblank : trim text = []
    · have hslice := hname.resolve_left (not_not.mpr hblank)
      obtain ⟨sliced, hsliced⟩ :=
        (JsValue.sliceCall_eq_ok_iff peerId 12 "peerId").mpr hslice
      refine ⟨sliced, except_bind_eq_ok.mpr ⟨.str (trim text), rfl, ?_⟩⟩
      rw [if_neg (by simp [hblank])]
      exact hsliced
    · refine ⟨.str (trim text), except_bind_eq_ok.mpr ⟨.str (trim text), rfl, ?_⟩⟩
      rw [if_pos ((JsValue.truthy_str _).mpr hblank)]

theorem readable_iff (data : JsValue) :
    readable data = true ↔ (claimedPeer data).truthy = false ∨
      ∃ name, registeredName (claimedPeer data) (claimedName data) = .ok name := by
  rw [exists_registeredName_iff, readable]
  cases (claimedName data).orElse (.str []) <;> simp

theorem register_of_truthy {r : Server} {socket : SocketId} {data name : JsValue}
    {list : List JsValue} (hpeer : (claimedPeer data).truthy = true)
    (hname : registeredName (claimedPeer data) (claimedName data) = .ok name)
    (hlist : (r.enroll socket ⟨claimedPeer data, r.allocated, name⟩).getOnlineList
      ((claimedPeer data).key r.allocated) = .ok list) :
    r.register socket data = .ok
      (r.enroll socket ⟨claimedPeer data, r.allocated, name⟩,
        [.toSocket socket (.onlineList (.arr list)),
          .broadcast socket (.userOnline (peerObject (claimedPeer data) name))]) := by
  unfold register
  rw [if_neg (by simpa [claimedPeer] using hpeer)]
  exact except_bind_eq_ok.mpr ⟨name, hname,
    except_bind_eq_ok.mpr ⟨list, hlist, rfl⟩⟩

theorem Named.exists_register_iff {r : Server} (h : r.Named) (socket : SocketId)
    (data : JsValue) :
    (∃ r' emits, r.register socket data = .ok (r', emits)) ↔
      readable data = true := by
  rw [readable_iff]
  constructor
  · rintro ⟨r', emits, hok⟩
    rcases register_cases hok with ⟨hfalsy, -, -⟩ | ⟨name, list, -, hname, -⟩
    · exact .inl hfalsy
    · exact .inr ⟨name, hname⟩
  · intro hread
    by_cases hpeer : (claimedPeer data).truthy = true
    · obtain ⟨name, hname⟩ := hread.resolve_left (by simp [hpeer])
      have hnamed : (r.enroll socket ⟨claimedPeer data, r.allocated, name⟩).Named :=
        forall_info_enroll h (truthy_of_registeredName hpeer hname)
      obtain ⟨list, hlist⟩ := hnamed.exists_getOnlineList
        ((claimedPeer data).key r.allocated)
      exact ⟨_, _, register_of_truthy hpeer hname hlist⟩
    · refine ⟨r, [], ?_⟩
      unfold register
      exact if_pos (by simpa [claimedPeer] using hpeer)

theorem Named.exists_handle_iff {r : Server} (h : r.Named) (a : Action) :
    (∃ r' emits, r.handle a = .ok (r', emits)) ↔ a.isReadable = true := by
  cases a with
  | connect socket => exact ⟨fun _ => rfl, fun _ => ⟨_, _, rfl⟩⟩
  | register socket data => exact h.exists_register_iff socket data
  | message socket payload => exact ⟨fun _ => rfl, fun _ => ⟨_, _, rfl⟩⟩
  | disconnect socket => exact ⟨fun _ => rfl, fun _ => ⟨_, _, rfl⟩⟩

/-- In every reachable state, an event is handled iff its argument is readable. -/
theorem handle_completes_iff {r : Server}
    (hr : system.Reach (fun _ _ => True) r) (a : Action) :
    (∃ r' emits, r.handle a = .ok (r', emits)) ↔ a.isReadable = true :=
  (named_of_reach hr).exists_handle_iff a

theorem handle_completes_without_name :
    ∃ r : Server, system.Reach (fun _ _ => True) r ∧
      (r.socketToPeer.get 0).isSome = true ∧
      ∃ r' emits, r.handle (.register 1 (registration (js "bob") [])) =
        .ok (r', emits) := by
  obtain ⟨r, hr, hcheck⟩ := System.exists_reach_of_exec
    (system) (fun _ _ => True) (fun _ _ => true)
    ([.connect 0, .register 0 (registration (js "alice") (js "A")), .connect 1])
    (fun r => (r.socketToPeer.get 0).isSome)
    (fun _ _ _ => trivial) (by decide)
  exact ⟨r, hr, hcheck, (handle_completes_iff hr _).mpr (by decide)⟩

theorem not_handled_of_numeric_name :
    ¬ ∀ r : Server, system.Reach (fun _ _ => True) r → ∀ a : Action,
      (∀ socket data, a = .register socket data → socket ∈ r.connected) →
      ∃ r' emits, r.handle a = .ok (r', emits) := by
  intro hall
  have hreach : system.Reach (fun _ _ => True) (empty.connect 0) :=
    .step (a := .connect 0) .initial trivial rfl
  obtain ⟨r', emits, hok⟩ := hall _ hreach (.register 0
    (.obj [(js "peerId", .str (js "alice")), (js "displayName", .num (.finite 5))])) (by
      rintro socket data heq
      cases heq
      decide)
  cases hok

end CommonChat.Relay.Server
