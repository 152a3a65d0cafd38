import CommonChat.Network.Presence

/-!
# Names

The name of a peer reaches a tab by two paths: the snapshot takes it from the
first registered socket of the peer, and the increments bring the name of the
last one that registered.  On either path it is the name of some socket that is
registered, so the tabs agree on it when the sockets of the peer do.
-/

namespace CommonChat.Network.World

open CommonChat.Foundation
open CommonChat.Core
open CommonChat.Relay
open CommonChat.Frontend

variable {H : Host}

def ShownAs (r : Server) (tab : Tab H) (q : Peer) : Prop :=
  ∃ p, q.pubKey = .str p ∧ p ≠ tab.peerId ∧
    ∃ s info, r.socketToPeer.get s = some info ∧ info.peerId = .str p ∧
      q.name = info.displayName

def Named (r : Server) (tab : Tab H) : Prop :=
  ∀ q ∈ tab.onlinePeers, ShownAs r tab q

theorem ShownAs.ne_own {r : Server} {tab : Tab H} {q : Peer}
    (h : ShownAs r tab q) : q.pubKey ≠ .str tab.peerId := by
  obtain ⟨p, hp, hother, -⟩ := h
  rw [hp]
  exact fun heq => hother (JsValue.str.inj heq)

theorem ShownAs.of_get {r r' : Server} {tab tab' : Tab H} {q : Peer}
    (h : ShownAs r tab q) (hme : tab'.peerId = tab.peerId)
    (hget : ∀ s info, r.socketToPeer.get s = some info → info.peerId = q.pubKey →
      r'.socketToPeer.get s = some info) : ShownAs r' tab' q := by
  obtain ⟨p, hp, hother, s, info, hinfo, hpeer, hname⟩ := h
  rw [← hme] at hother
  exact ⟨p, hp, hother, s, info, hget s info hinfo (hpeer.trans hp.symm), hpeer,
    hname⟩

theorem named_snapshot {r : Server} {list : List JsValue} {tab : Tab H}
    (hpeers : StringPeers r) (hnames : StringNames r)
    (hlist : r.getOnlineList (.str tab.peerId) = .ok list) :
    Named r (tab.onOnlineList (JsValue.arr list).throughJson) := by
  intro q hq
  rw [onOnlineList_peers hlist] at hq
  obtain ⟨item, hitem, rfl⟩ := List.mem_map.mp hq
  obtain ⟨s, info, name, hmem, hkey, hname, rfl⟩ :=
    Server.mem_getOnlineListFrom hlist item hitem
  have hget := (InsertionMap.mem_entries_iff _ _ _).mp hmem
  obtain ⟨p, hp⟩ := hpeers s info hget
  obtain ⟨n, hn, hshown⟩ := hnames s info hget
  rw [listedName_of_string hn hshown] at hname
  cases hname
  refine ⟨p, by rw [hp]; rfl, ?_, s, info, hget, hp, by rw [hshown]; rfl⟩
  rintro rfl
  exact hkey (by rw [PeerInfo.key, hp]; rfl)

theorem Named.online {r : Server} {tab : Tab H} (h : Named r tab) {s : SocketId}
    {p n : JsString} (address : Nat) (hne : p ≠ [])
    (hkeep : ∀ peer, r.RegisteredAs s peer → peer = .str p) :
    Named (r.enroll s ⟨.str p, address, .str n⟩)
      (tab.onUserOnline (Server.peerObject (.str p) (.str n)).throughJson) := by
  have hme : (tab.onUserOnline
      (Server.peerObject (.str p) (.str n)).throughJson).peerId = tab.peerId :=
    (Clients.onRelayEvent_identity tab (.userOnline _)).2.1
  have hold : ∀ q ∈ tab.onlinePeers, q.pubKey ≠ .str p →
      ShownAs (r.enroll s ⟨.str p, address, .str n⟩) (tab.onUserOnline
        (Server.peerObject (.str p) (.str n)).throughJson) q := by
    intro q hq hqp
    refine (h q hq).of_get hme ?_
    intro s' info hinfo hpeer
    have hss : s' ≠ s := by
      rintro rfl
      have hkey := hkeep info.key ⟨info, hinfo, rfl⟩
      obtain ⟨p', hp', -⟩ := h q hq
      rw [PeerInfo.key, hpeer, hp'] at hkey
      exact hqp (by rw [hp', JsKey.str.inj hkey])
    simp only [Server.enroll, InsertionMap.get_set, if_neg hss]
    exact hinfo
  intro q hq
  obtain ⟨shown, hshown, hpeers⟩ := onUserOnline_peers tab (.str n) hne
  obtain rfl := hshown n rfl
  rw [hpeers] at hq
  split at hq
  · rename_i hown
    exact hold q hq (hown ▸ (h q hq).ne_own)
  · rename_i hother
    rcases List.mem_append.mp hq with hq | hq
    · simp only [List.mem_filter, Bool.not_eq_true',
        JsValue.strictEq_str_false_iff] at hq
      exact hold q hq.1 hq.2
    · rw [List.mem_singleton.mp hq]
      exact ⟨p, rfl, by rw [hme]; exact hother, s, ⟨.str p, address, .str n⟩,
        by simp [Server.enroll], rfl, rfl⟩

theorem Named.offline {r : Server} {tab : Tab H} (h : Named r tab) {s : SocketId}
    {p : JsString} (hreg : r.RegisteredAs s (.str p)) :
    Named (r.disconnect s).1
      (tab.onUserOffline (JsValue.obj [(js "peerId", .str p)]).throughJson) := by
  intro q hq
  have hkept : q ∈ tab.onlinePeers ∧ q.pubKey ≠ .str p := by
    rw [onUserOffline_peers] at hq
    split at hq
    · rename_i hown
      exact ⟨hq, hown ▸ (h q hq).ne_own⟩
    · simp only [List.mem_filter, Bool.not_eq_true',
        JsValue.strictEq_str_false_iff] at hq
      exact hq
  refine (h q hkept.1).of_get
    (Clients.onRelayEvent_identity tab (.userOffline _)).2.1 ?_
  intro s' info hinfo hpeer
  have hss : s' ≠ s := by
    rintro rfl
    obtain ⟨info', hinfo', hkey⟩ := hreg
    rw [hinfo] at hinfo'
    cases hinfo'
    obtain ⟨p', hp', -⟩ := h q hkept.1
    rw [PeerInfo.key, hpeer, hp'] at hkey
    exact hkept.2 (by rw [hp', JsKey.str.inj hkey])
  rw [Server.socketToPeer_disconnect, InsertionMap.get_delete, if_neg hss]
  exact hinfo

theorem named_tracks : Tracks (fun _ _ => True) (Named (H := H)) where
  congr r r' tab tab' hget hsame h := by
    intro q hq
    rw [hsame.onlinePeers_eq] at hq
    exact (h q hq).of_get hsame.peerId_eq
      (fun s info hinfo _ => (hget s).trans hinfo)
  snapshot r list tab hpeers hnames hlist := named_snapshot hpeers hnames hlist
  online r s p address n tab hne hn hkeep h := h.online address hne hkeep
  offline r s s₁ p tab _ hreg hss hself h := h.offline hreg

/-! ## Agreement of the tabs -/

/-- The sockets that are registered under the peer id all carry one name. -/
def OneName (r : Server) (peer : JsValue) : Prop :=
  ∀ s s' info info', r.socketToPeer.get s = some info →
    r.socketToPeer.get s' = some info' → info.peerId = peer →
    info'.peerId = peer → info.displayName = info'.displayName

def Settled (w : World H) (t : TabId) (tab : Tab H) : Prop :=
  w.clients.tabs t = some tab ∧ ∃ s, w.current t = some s ∧
    (∃ peer, w.relay.RegisteredAs s peer) ∧ w.down s = []

theorem named_of_settled {w : World H} (hw : (system H).Reach Shipped w)
    {t : TabId} {tab : Tab H} (ht : w.Settled t tab) : Named w.relay tab := by
  obtain ⟨htab, s, hs, ⟨peer, hreg⟩, hidle⟩ := ht
  have h := follows_of_tracks named_tracks (fun _ _ hok => hok)
    (fun _ _ _ => trivial) hw t tab s peer htab hs hreg
  rw [hidle] at h
  exact h

/--
Two settled tabs give a peer the same name if the sockets of the peer that are
registered carry the same name.
-/
theorem shown_names_agree {w : World H} (hw : (system H).Reach Shipped w)
    {t t' : TabId} {tab tab' : Tab H} (ht : w.Settled t tab)
    (ht' : w.Settled t' tab') {q q' : Peer} (hq : q ∈ tab.onlinePeers)
    (hq' : q' ∈ tab'.onlinePeers) (hsame : q.pubKey = q'.pubKey)
    (hone : OneName w.relay q.pubKey) : q.name = q'.name := by
  obtain ⟨p, hp, -, s, info, hinfo, hpeer, hname⟩ := named_of_settled hw ht q hq
  obtain ⟨p', hp', -, s', info', hinfo', hpeer', hname'⟩ :=
    named_of_settled hw ht' q' hq'
  rw [hname, hname']
  refine hone s s' info info' hinfo hinfo' (hpeer.trans hp.symm) ?_
  rw [hpeer', hsame, hp']

def isSettled (w : World H) (t : TabId) : Bool :=
  (w.current t).any fun s =>
    (w.down s).isEmpty && (w.relay.socketToPeer.get s).isSome

theorem settled_of_isSettled {w : World H} {t : TabId} {tab : Tab H}
    (htab : w.clients.tabs t = some tab) (h : w.isSettled t = true) :
    w.Settled t tab := by
  obtain ⟨s, hs, hcheck⟩ := (Option.any_eq_true _ _).mp h
  rw [Bool.and_eq_true, List.isEmpty_iff, Option.isSome_iff_exists] at hcheck
  obtain ⟨hidle, info, hinfo⟩ := hcheck
  exact ⟨htab, s, hs, ⟨info.key, info, hinfo, rfl⟩, hidle⟩

def lateTab (s : SocketId) : List Action :=
  [.page (.load 2), .page (.handleInitialize 3 (js "D") (plainKey 3)),
    .connect 3, .recv s, .deliver 3, .deliver 2]

def showsAs (tab : Tab H) (name : JsString) : Bool :=
  tab.onlinePeers.any fun q =>
    q.pubKey.strictEq (.str (plainPeer 1)) && q.name.strictEq (.str name)

theorem exists_of_showsAs {tab : Tab H} {name : JsString}
    (h : showsAs tab name = true) :
    ∃ q ∈ tab.onlinePeers, q.pubKey = .str (plainPeer 1) ∧ q.name = .str name := by
  obtain ⟨q, hq, hshown⟩ := List.any_eq_true.mp h
  simp only [Bool.and_eq_true, JsValue.strictEq_str_iff] at hshown
  exact ⟨q, hq, hshown⟩

theorem shown_names_agree_late :
    ∃ w : World plainHost, (system plainHost).Reach Shipped w ∧
      ∃ tab tab' q q', w.Settled 2 tab ∧ w.Settled 3 tab' ∧
        q ∈ tab.onlinePeers ∧ q' ∈ tab'.onlinePeers ∧
        q.pubKey = .str (plainPeer 1) ∧ q'.pubKey = .str (plainPeer 1) ∧
        q.name = q'.name := by
  obtain ⟨w, hw, hcheck⟩ := System.exists_reach_of_exec
    (system plainHost) (Shipped) (fun _ a => shipped a)
    (threeTabs ++ [.deliver 2, .deliver 2, .deliver 2] ++ lateTab 3)
    (fun w => w.isSettled 2 && w.isSettled 3 &&
      (w.relay.socketToPeer.entries.all fun entry =>
        !entry.2.peerId.strictEq (.str (plainPeer 1)) ||
          entry.2.displayName.strictEq (.str (js "P"))) &&
      ((w.clients.tabs 2).any fun tab => showsAs tab (js "P")) &&
      (w.clients.tabs 3).any fun tab => showsAs tab (js "P"))
    (fun _ _ h => h) (by decide +kernel)
  simp only [Bool.and_eq_true, Option.any_eq_true, List.all_eq_true,
    Bool.or_eq_true, Bool.not_eq_true', JsValue.strictEq_str_iff,
    JsValue.strictEq_str_false_iff] at hcheck
  obtain ⟨⟨⟨⟨hsettled, hsettled'⟩, hnames⟩, tab, htab, hshows⟩, tab', htab', hshows'⟩ :=
    hcheck
  obtain ⟨q, hq, hpeer, -⟩ := exists_of_showsAs hshows
  obtain ⟨q', hq', hpeer', -⟩ := exists_of_showsAs hshows'
  have hone : OneName w.relay q.pubKey := by
    have hname : ∀ s info, w.relay.socketToPeer.get s = some info →
        info.peerId = .str (plainPeer 1) → info.displayName = .str (js "P") := by
      intro s info hinfo hpeer
      have hentry := hnames _ ((InsertionMap.mem_entries_iff _ _ _).mpr hinfo)
      exact hentry.resolve_left fun hne => hne hpeer
    rw [hpeer]
    intro s s' info info' hinfo hinfo' hs hs'
    rw [hname s info hinfo hs, hname s' info' hinfo' hs']
  have ht := settled_of_isSettled htab hsettled
  have ht' := settled_of_isSettled htab' hsettled'
  exact ⟨w, hw, tab, tab', q, q', ht, ht', hq, hq', hpeer, hpeer',
    shown_names_agree hw ht ht' hq hq' (hpeer.trans hpeer'.symm) hone⟩

/--
Tab 1 changes its name to `Q` while tab 0 of the same peer keeps `P`.  Tab 2
has seen the change; tab 3 joins late and is given the name of the first socket.
-/
theorem names_differ_of_rename :
    ¬ ∀ (H : Host) (w : World H), (system H).Reach Shipped w →
      ∀ t t' tab tab', w.Settled t tab → w.Settled t' tab' →
        ∀ q ∈ tab.onlinePeers, ∀ q' ∈ tab'.onlinePeers,
          q.pubKey = q'.pubKey → q.name = q'.name := by
  intro hall
  obtain ⟨w, hw, hcheck⟩ := System.exists_reach_of_exec
    (system plainHost) (Shipped) (fun _ a => shipped a)
    (threeTabs ++ [.rename 1 (js "Q"), .drop 1, .connect 1, .recv 3,
      .deliver 2, .deliver 2, .deliver 2, .deliver 2, .deliver 2] ++ lateTab 4)
    (fun w => w.isSettled 2 && w.isSettled 3 &&
      ((w.clients.tabs 2).any fun tab => showsAs tab (js "Q")) &&
      (w.clients.tabs 3).any fun tab => showsAs tab (js "P"))
    (fun _ _ h => h) (by decide +kernel)
  simp only [Bool.and_eq_true, Option.any_eq_true] at hcheck
  obtain ⟨⟨⟨hsettled, hsettled'⟩, tab, htab, hshows⟩, tab', htab', hshows'⟩ := hcheck
  obtain ⟨q, hq, hpeer, hname⟩ := exists_of_showsAs hshows
  obtain ⟨q', hq', hpeer', hname'⟩ := exists_of_showsAs hshows'
  have hsame := hall plainHost w hw 2 3 tab tab'
    (settled_of_isSettled htab hsettled) (settled_of_isSettled htab' hsettled')
    q hq q' hq' (hpeer.trans hpeer'.symm)
  rw [hname, hname'] at hsame
  exact absurd (JsValue.str.inj hsame) (by decide)

end CommonChat.Network.World
