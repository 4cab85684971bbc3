import CharmRuntime.Sparrow.PlacerInv

/-!
# Sparrow.Reservations

What a new request reserves. Both placers record in `outstandingReservations` what they send
(`Records`), reserve at least as much as there are tasks, and begin in a state that keeps
`TaskPlacer.Inv`.
-/

namespace CharmRuntime.Sparrow

open Lib List Nat

variable {allowed : Allowed}

theorem socketAddressToThrift_injective : Function.Injective socketAddressToThrift := by
  rintro ⟨⟨host⟩, port⟩ ⟨⟨host'⟩, port'⟩ h
  obtain ⟨rfl, rfl⟩ := THostPort.mk.inj h
  rfl

/-- The number of reservations sent to each node monitor is recorded. -/
def Records (requests : EnqueueRequests) (outstanding : HashMap THostPort Nat) : Prop :=
  ∀ addr, outstanding.lookup (socketAddressToThrift addr) = (requests.lookup addr).map (·.numTasks)

/-- The reservations that are sent, each as its node monitor. -/
abbrev sent (requests : EnqueueRequests) : List InetSocketAddress :=
  requests.tokens TEnqueueTaskReservationsRequest.numTasks

section Records

variable {requests : EnqueueRequests} {outstanding : HashMap THostPort Nat}

theorem Records.empty : Records ∅ ∅ := fun _ => rfl

theorem Records.insert (h : Records requests outstanding) (addr : InetSocketAddress)
    (request : TEnqueueTaskReservationsRequest) :
    Records (requests.insert addr request)
      (outstanding.insert (socketAddressToThrift addr) request.numTasks) := by
  intro addr'
  by_cases haddr : addr' = addr
  · subst haddr
    simp
  · rw [AList.lookup_insert_ne (socketAddressToThrift_injective.ne haddr),
      AList.lookup_insert_ne haddr]
    exact h addr'

theorem Records.count (h : Records requests outstanding) (addr : InetSocketAddress) :
    (outstanding.tokens id).count (socketAddressToThrift addr) = (sent requests).count addr := by
  rw [HashMap.count_tokens, HashMap.count_tokens, h addr]
  cases requests.lookup addr <;> rfl

theorem Records.perm (h : Records requests outstanding) :
    (outstanding.tokens id).Perm ((sent requests).map socketAddressToThrift) := by
  refine perm_iff_count.mpr fun node => ?_
  obtain ⟨addr, rfl⟩ : ∃ addr, socketAddressToThrift addr = node := ⟨⟨⟨node.host⟩, node.port⟩, rfl⟩
  rw [count_map_of_injective _ _ socketAddressToThrift_injective]
  exact h.count addr

theorem Records.granted (h : Records requests outstanding) (node : THostPort) :
    granted requests node = (outstanding.tokens id).count node := by
  have hlookup : outstanding.lookup node = _ := h ⟨⟨node.host⟩, node.port⟩
  rw [HashMap.count_tokens, Sparrow.granted, hlookup]
  cases requests.lookup ⟨⟨node.host⟩, node.port⟩ <;> rfl

/-- No request is for nothing. -/
def Asks (requests : EnqueueRequests) :
    Prop := ∀ addr request, requests.lookup addr = some request → 0 < request.numTasks

theorem Asks.empty : Asks ∅ := fun _ _ h => absurd h.symm (Option.some_ne_none _)

theorem Asks.insert (h : Asks requests) {addr : InetSocketAddress}
    {request : TEnqueueTaskReservationsRequest}
    (hpos : 0 < request.numTasks) : Asks (requests.insert addr request) := by
  intro addr' request' heq
  by_cases haddr : addr' = addr
  · subst haddr
    rw [AList.lookup_insert] at heq
    exact Option.some.inj heq ▸ hpos
  · rw [AList.lookup_insert_ne haddr] at heq
    exact h addr' request' heq

theorem Records.positive (h : Records requests outstanding) (hasks : Asks requests) :
    outstanding.Positive := by
  intro node n hn
  have heq : outstanding.lookup node = _ := h ⟨⟨node.host⟩, node.port⟩
  rw [hn] at heq
  cases hlookup : requests.lookup ⟨⟨node.host⟩, node.port⟩ with
  | none =>
    rw [hlookup] at heq
    cases heq
  | some request =>
    rw [hlookup] at heq
    exact Option.some.inj heq ▸ hasks _ request hlookup

end Records

theorem le_reservationsToLaunch {probeRatio : ℚ} {n : Nat} (hratio : 1 ≤ probeRatio)
    (hn : n ≤ maxInt) :
    n ≤ reservationsToLaunch probeRatio n := by
  refine le_min ?_ hn
  have hle : n ≤ probeRatio * n := le_mul_of_one_le_left (cast_nonneg n) hratio
  exact_mod_cast hle.trans (le_ceil _)

/-! ### Requests without constraints -/

namespace UnconstrainedTaskPlacer

variable {send : Nat → TEnqueueTaskReservationsRequest} {nodeList : List InetSocketAddress}
  {i : Nat} {requests : EnqueueRequests} {outstanding : HashMap THostPort Nat}

theorem reserve_records (hsend : ∀ n, (send n).numTasks = n)
    {q extra : Nat} (h : Records requests outstanding) :
    Records (reserve send q extra i nodeList requests outstanding).1
      (reserve send q extra i nodeList requests outstanding).2 := by
  induction nodeList generalizing i requests outstanding with
  | nil => exact h
  | cons node rest ih =>
    have hnext := h.insert node (send (if extra > i then q + 1 else q))
    rw [hsend] at hnext
    exact ih hnext

theorem reserve_asks (hsend : ∀ n, (send n).numTasks = n) {q extra : Nat} (hq : 0 < q)
    (h : Asks requests) :
    Asks (reserve send q extra i nodeList requests outstanding).1 := by
  induction nodeList generalizing i requests outstanding with
  | nil => exact h
  | cons node rest ih =>
    refine ih (h.insert ?_)
    rw [hsend]
    split
    · exact succ_pos q
    · exact hq

/-- The first `extra` node monitors get one reservation more than the others. -/
theorem length_sent_reserve (hsend : ∀ n, (send n).numTasks = n)
    {q extra : Nat} (hnodup : nodeList.Nodup)
    (hnew : ∀ node ∈ nodeList, requests.lookup node = none)
    :
    (sent (reserve send q extra i nodeList requests outstanding).1).length =
      (sent requests).length + (nodeList.length * q + min nodeList.length (extra - i)) := by
  induction nodeList generalizing i requests outstanding with
  | nil => simp [reserve]
  | cons node rest ih =>
    obtain ⟨hnode, hrest⟩ := nodup_cons.mp hnodup
    have hnew' :
      ∀ node' ∈ rest, (requests.insert node (send (if extra > i then q + 1 else q))).lookup node' =
      none := by
      intro node' hmem
      have hne : node' ≠ node := fun heq => hnode (heq ▸ hmem)
      rw [AList.lookup_insert_ne hne]
      exact hnew node' (mem_cons_of_mem node hmem)
    have hstep : (sent (requests.insert node (send (if extra > i then q + 1 else q)))).length =
        (if extra > i then q + 1 else q) + (sent requests).length := by
      rw [sent, HashMap.tokens_insert_new (hnew node mem_cons_self), length_append,
        length_replicate, hsend]
    have hlength :
      (sent (reserve send q extra i (node :: rest) requests outstanding).1).length = _ :=
      ih hrest hnew'
    rw [hlength, hstep, length_cons, succ_mul]
    split <;> omega

theorem shares_sum {k launch : Nat} (hk : 0 < k) (hle : k ≤ launch) :
    k * (if k < launch then launch / k else 1) + min k (launch % k) = launch := by
  rw [min_eq_right (mod_lt launch hk).le]
  split
  · exact div_add_mod launch k
  · next hlt =>
      obtain rfl : k = launch := by omega
      rw [mod_self, mul_one, add_zero]

/-- The loop over a list of node monitors that is not longer than there are reservations. -/
theorem reserve_spec (hsend : ∀ n, (send n).numTasks = n)
    {launch : Nat} (hk : 0 < nodeList.length) (hle : nodeList.length ≤ launch)
    (hnodup : nodeList.Nodup) :
    ∃ requests outstanding,
      reserve send (if nodeList.length < launch then launch / nodeList.length else 1)
        (launch % nodeList.length) 0
        nodeList ∅ ∅ = (requests, outstanding) ∧
      Records requests outstanding ∧ Asks requests ∧ (sent requests).length = launch := by
  generalize hq : (if nodeList.length < launch then launch / nodeList.length else 1) = q
  have hqpos : 0 < q := by
    subst hq
    split
    · exact div_pos hle hk
    · exact one_pos
  refine ⟨_, _, rfl, reserve_records hsend Records.empty, reserve_asks hsend hqpos Asks.empty, ?_⟩
  rw [length_sent_reserve hsend hnodup fun _ _ => rfl, ← hq]
  exact (zero_add _).trans (shares_sum hk hle)

variable {probeRatio : ℚ} {shuffle : Shuffle InetSocketAddress} {request : TSchedulingRequest}
  {requestId : String}
  {nodes : List InetSocketAddress} {schedulerAddress : THostPort}

/-- **The reservations of a request without constraints.** -/
theorem getEnqueueTaskReservationsRequests_spec (hratio : 1 ≤ probeRatio) (hnodes : nodes ≠ [])
    (hnodup : nodes.Nodup) (htasks : request.tasks ≠ [])
    (hallowed : ∀ spec ∈ request.tasks.map (·.launchSpec), ∀ node, allowed spec node) :
    ∃ requests p, (new requestId probeRatio).getEnqueueTaskReservationsRequests shuffle request
      requestId nodes
        schedulerAddress = .ok (requests, p) ∧
      Records requests p.outstandingReservations ∧
      (sent requests).length = reservationsToLaunch probeRatio request.tasks.length ∧
      p.cancelled = false ∧
      p.Inv allowed (request.tasks.map (·.launchSpec)) := by
  have henough := le_reservationsToLaunch hratio request.tasks_size
  have hpos : 0 < request.tasks.length := length_pos_iff.mpr htasks
  have hshuffled : 0 < (shuffle.apply nodes).length := by
    rw [(shuffle.perm nodes).length_eq]
    exact length_pos_iff.mpr hnodes
  generalize hlaunch : reservationsToLaunch probeRatio request.tasks.length = launch at henough
  generalize hlist :
    (if launch < (shuffle.apply nodes).length then (shuffle.apply nodes).take launch
    else shuffle.apply nodes) = nodeList
  obtain ⟨hk, hle, hdistinct⟩ :
    0 < nodeList.length ∧ nodeList.length ≤ launch ∧ nodeList.Nodup := by
    have hnodup' := (shuffle.perm nodes).nodup_iff.mpr hnodup
    subst hlist
    split
    · refine ⟨?_, length_take_le _ _, hnodup'.sublist (take_sublist _ _)⟩
      rw [length_take]
      exact lt_min (hpos.trans_le henough) hshuffled
    · next hle => exact ⟨hshuffled, Nat.le_of_not_lt hle, hnodup'⟩
  have hsend : ∀ n, (newRequest request requestId schedulerAddress n).numTasks = n := fun _ => rfl
  obtain ⟨requests, outstanding, hreserve, hrecords, hasks, hlength⟩ :=
    reserve_spec hsend hk hle hdistinct
  refine ⟨requests, ⟨request.tasks.map (·.launchSpec), outstanding, false, requestId, probeRatio⟩,
    ?_, hrecords, hlength, rfl, ⟨rfl, hallowed, ?_, hrecords.positive hasks⟩⟩
  · simp only [getEnqueueTaskReservationsRequests, new, hlaunch, hlist, hreserve]
    exact if_neg fun h => absurd h.2 hk.ne'
  · show (request.tasks.map (·.launchSpec)).length ≤ (outstanding.tokens id).length
    rw [hrecords.perm.length_eq, length_map, length_map, hlength]
    exact henough

end UnconstrainedTaskPlacer

/-! ### Requests with constraints -/

namespace ConstrainedTaskPlacer

section AddrToSocket

variable {nodes : List InetSocketAddress}

theorem addrToSocket_append (node : InetSocketAddress) :
    addrToSocket (nodes ++ [node]) = (addrToSocket nodes).insert node.address node := by
  rw [addrToSocket, foldl_append]
  rfl

variable {addr node : InetSocketAddress}

theorem addrToSocket_lookup {address : InetAddress}
    (h : (addrToSocket nodes).lookup address = some addr) :
    addr ∈ nodes ∧ addr.address = address := by
  induction nodes using reverseRecOn with
  | nil => cases h
  | append_singleton nodes node ih =>
    rw [addrToSocket_append] at h
    by_cases haddr : address = node.address
    · subst haddr
      rw [AList.lookup_insert] at h
      obtain rfl := Option.some.inj h
      exact ⟨mem_append_right _ (mem_singleton_self _), rfl⟩
    · rw [AList.lookup_insert_ne haddr] at h
      exact ⟨mem_append_left _ (ih h).1, (ih h).2⟩

theorem addrToSocket_known (h : node ∈ nodes) :
    ∃ addr, (addrToSocket nodes).lookup node.address = some addr := by
  induction nodes using reverseRecOn with
  | nil => exact absurd h not_mem_nil
  | append_singleton nodes last ih =>
    rw [addrToSocket_append]
    by_cases haddr : node.address = last.address
    · exact ⟨last, by rw [haddr, AList.lookup_insert]⟩
    · rw [AList.lookup_insert_ne haddr]
      obtain h | h := mem_append.mp h
      · exact ih h
      · exact absurd (congrArg (·.address) (mem_singleton.mp h)) haddr

/-- The task prefers a host that is resolved to the address of a node monitor. -/
def Prefers (getByName : String → Option InetAddress) (task : TTaskSpec)
    (node : InetSocketAddress) : Prop :=
  ∃ host ∈ task.preferredNodes, getByName host = some node.address

variable {getByName : String → Option InetAddress} {shuffle : Shuffle String} {task : TTaskSpec}

theorem mem_taskPreferencesToSocketList
    (h : addr ∈ taskPreferencesToSocketList getByName shuffle task (addrToSocket nodes)) :
    addr ∈ nodes ∧ Prefers getByName task addr := by
  obtain ⟨host, hhost, hbind⟩ := mem_filterMap.mp h
  obtain ⟨address, hname, hlookup⟩ := Option.bind_eq_some_iff.mp hbind
  obtain ⟨hmem, rfl⟩ := addrToSocket_lookup hlookup
  exact ⟨hmem, host, (shuffle.perm _).mem_iff.mp hhost, hname⟩

theorem taskPreferencesToSocketList_ne_nil (hnode : node ∈ nodes)
    (hprefers : Prefers getByName task node) :
    taskPreferencesToSocketList getByName shuffle task (addrToSocket nodes) ≠ [] := by
  obtain ⟨host, hhost, hname⟩ := hprefers
  obtain ⟨addr, hlookup⟩ := addrToSocket_known hnode
  have hmem : addr ∈ taskPreferencesToSocketList getByName shuffle task (addrToSocket nodes) := by
    refine mem_filterMap.mpr ⟨host, (shuffle.perm _).mem_iff.mpr hhost, ?_⟩
    rw [hname]
    exact hlookup
  exact ne_nil_of_mem hmem

end AddrToSocket

/-! #### The constrained tasks -/

/-- `known` are the tasks that are listed somewhere, `covered` those with a reservation. -/
structure Reserving.Sound (allowed : Allowed) (known covered : List TTaskLaunchSpec)
    (r : Reserving) : Prop where
  listed : ∀ node, ∀ spec ∈ tasksAt r.unlaunched node, spec ∈ known ∧ allowed spec node
  covers : ∀ spec ∈ covered, ∃ addr,
    spec ∈ (tasksAt r.unlaunched (socketAddressToThrift addr)).take ((sent r.requests).count addr)
  enough : covered.length ≤ (sent r.requests).length
  asks : Asks r.requests

variable {known covered : List TTaskLaunchSpec} {r : Reserving} {spec : TTaskLaunchSpec}
  {addr : InetSocketAddress}
  {send : Nat → TEnqueueTaskReservationsRequest} {probeRatio : ℚ}

theorem Reserving.Sound.mono (h : r.Sound allowed known covered)
    {known' covered' : List TTaskLaunchSpec}
    (hknown : known ⊆ known') (hcovered : covered' ⊆ covered)
    (hle : covered'.length ≤ covered.length) :
    r.Sound allowed known' covered' where
  listed node s hs := ⟨hknown (h.listed node s hs).1, (h.listed node s hs).2⟩
  covers s hs := h.covers s (hcovered hs)
  enough := hle.trans h.enough
  asks := h.asks

theorem listed_insert {node : THostPort} {m : HashMap THostPort (List TTaskLaunchSpec)}
    {l : List TTaskLaunchSpec}
    (h : ∀ node, ∀ s ∈ tasksAt m node, s ∈ known ∧ allowed s node) (hspec : spec ∈ known)
    (hallowed : allowed spec node)
    (hl : ∀ s ∈ l, s = spec ∨ s ∈ tasksAt m node) :
    ∀ node', ∀ s ∈ tasksAt (m.insert node l) node', s ∈ known ∧ allowed s node' := by
  intro node' s hs
  rw [tasksAt_insert] at hs
  split at hs
  · next hnode =>
      subst hnode
      obtain rfl | hs := hl s hs
      · exact ⟨hspec, hallowed⟩
      · exact h _ s hs
  · exact h _ s hs

theorem Reserving.Sound.front (h : r.Sound allowed known covered) (hspec : spec ∈ known)
    (hallowed : allowed spec (socketAddressToThrift addr))
    {request : TEnqueueTaskReservationsRequest}
    (hrequest : request.numTasks = (r.requests.lookup addr).elim 0 (·.numTasks) + 1) :
    Reserving.Sound allowed known (spec :: covered) ⟨r.requests.insert addr request,
        r.unlaunched.insert (socketAddressToThrift addr)
        (spec :: tasksAt r.unlaunched (socketAddressToThrift addr))⟩ := by
  have hsent := HashMap.tokens_insert_succ hrequest
  have hcount : ∀ addr', (sent (r.requests.insert addr request)).count addr' =
      (sent r.requests).count addr' + if addr = addr' then 1 else 0 := by
    intro addr'
    rw [hsent.count_eq addr', count_cons]
    simp
  refine ⟨listed_insert h.listed hspec hallowed ?_, ?_, ?_, h.asks.insert (hrequest ▸ succ_pos _)⟩
  · exact fun s hs => mem_cons.mp hs
  · intro s hs
    obtain rfl | hs := mem_cons.mp hs
    · refine ⟨addr, ?_⟩
      rw [hcount, if_pos rfl, tasksAt_insert, if_pos rfl]
      exact mem_cons_self
    · obtain ⟨addr', hmem⟩ := h.covers s hs
      refine ⟨addr', ?_⟩
      rw [hcount, tasksAt_insert]
      by_cases haddr : addr' = addr
      · subst haddr
        rw [if_pos rfl, if_pos rfl]
        exact mem_cons_of_mem _ hmem
      · rw [if_neg (Ne.symm haddr), if_neg (socketAddressToThrift_injective.ne haddr)]
        exact hmem
  · rw [hsent.length_eq]
    exact succ_le_succ h.enough

theorem Reserving.Sound.back (h : r.Sound allowed known covered) (hspec : spec ∈ known)
    (hallowed : allowed spec (socketAddressToThrift addr)) :
    Reserving.Sound allowed known covered ⟨r.requests,
        r.unlaunched.insert (socketAddressToThrift addr)
          (tasksAt r.unlaunched (socketAddressToThrift addr) ++ [spec])⟩ := by
  refine ⟨listed_insert h.listed hspec hallowed ?_, ?_, h.enough, h.asks⟩
  · intro s hs
    rw [mem_append, mem_singleton] at hs
    exact hs.symm
  · intro s hs
    obtain ⟨addr', hmem⟩ := h.covers s hs
    refine ⟨addr', ?_⟩
    rw [tasksAt_insert]
    split
    · next haddr =>
        rw [take_append]
        exact mem_append_left _ (haddr ▸ hmem)
    · exact hmem

theorem Reserving.Sound.reserveAt (hsend : ∀ n, (send n).numTasks = n) {s : Reserving × Nat}
    (h : s.1.Sound allowed known (if s.2 = 0 then covered else spec :: covered))
    (hspec : spec ∈ known)
    (hallowed : allowed spec (socketAddressToThrift addr)) (hratio : 0 < probeRatio) :
    (ConstrainedTaskPlacer.reserveAt send probeRatio spec s addr).1.Sound allowed known
      (spec :: covered) ∧
      (ConstrainedTaskPlacer.reserveAt send probeRatio spec s addr).2 ≠ 0 := by
  obtain ⟨r, k⟩ := s
  rw [ConstrainedTaskPlacer.reserveAt]
  by_cases hk : k < probeRatio
  · simp only [if_pos hk]
    refine ⟨?_, succ_ne_zero k⟩
    refine Sound.mono (h.front hspec hallowed ?_) (fun _ => id) ?_ ?_
    · cases r.requests.lookup addr with
      | none => exact hsend 1
      | some request => rfl
    · split
      · exact fun _ => id
      · exact subset_cons_self _ _
    · split
      · exact le_rfl
      · exact le_succ _
  · simp only [if_neg hk]
    have hk0 : k ≠ 0 := by
      rintro rfl
      exact hk (by simpa using hratio)
    rw [if_neg hk0] at h
    exact ⟨h.back hspec hallowed, hk0⟩

variable {preferred : TTaskSpec → List InetSocketAddress} {tasks : List TTaskSpec}
  {nodes : List InetSocketAddress} {requests : EnqueueRequests}

theorem Reserving.Sound.reserveTask (h : r.Sound allowed known covered)
    (hsend : ∀ n, (send n).numTasks = n)
    (hratio : 0 < probeRatio) {task : TTaskSpec} (hne : preferred task ≠ [])
    (hallowed : ∀ addr ∈ preferred task, allowed task.launchSpec (socketAddressToThrift addr))
    (hspec : task.launchSpec ∈ known) :
    (ConstrainedTaskPlacer.reserveTask send probeRatio preferred r task).Sound allowed known
      (task.launchSpec :: covered) := by
  have hfold : ∀ (l : List InetSocketAddress) (s : Reserving × Nat),
      (∀ addr ∈ l, allowed task.launchSpec (socketAddressToThrift addr)) →
      s.1.Sound allowed known (if s.2 = 0 then covered else task.launchSpec :: covered) →
      (s.2 ≠ 0 ∨ l ≠ []) →
      (l.foldl (ConstrainedTaskPlacer.reserveAt send probeRatio task.launchSpec) s).1.Sound allowed
        known (task.launchSpec :: covered) := by
    intro l
    induction l with
    | nil =>
      intro s _ hr hk
      rw [if_neg (hk.resolve_right (fun h => h rfl))] at hr
      exact hr
    | cons addr l ih =>
      intro s hl hr _
      obtain ⟨hsound, hk⟩ := reserveAt hsend hr hspec (hl addr mem_cons_self) hratio
      refine ih _ (fun a ha => hl a (mem_cons_of_mem addr ha)) ?_ (.inl hk)
      rw [if_neg hk]
      exact hsound
  exact hfold _ (r, 0) hallowed h (.inr hne)

theorem reserveTasks_sound (hsend : ∀ n, (send n).numTasks = n) (hratio : 0 < probeRatio)
    (hne : ∀ task ∈ tasks, preferred task ≠ [])
    (hallowed : ∀ task ∈ tasks, ∀ addr ∈ preferred task,
      allowed task.launchSpec (socketAddressToThrift addr)) :
    (tasks.foldl (reserveTask send probeRatio preferred) ⟨∅, ∅⟩).Sound allowed
      (tasks.map (·.launchSpec))
      (tasks.map (·.launchSpec)) := by
  induction tasks using reverseRecOn with
  | nil =>
    exact ⟨fun node spec h => absurd h not_mem_nil, fun spec h => absurd h not_mem_nil,
      le_rfl, Asks.empty⟩
  | append_singleton tasks task ih =>
    have hsound := ih (fun t ht => hne t (mem_append_left _ ht))
      (fun t ht => hallowed t (mem_append_left _ ht))
    have hmem : task ∈ tasks ++ [task] := mem_append_right _ (mem_singleton_self _)
    rw [foldl_append, map_append]
    have hknown := hsound.mono (subset_append_left _ [task.launchSpec]) (fun _ => id) le_rfl
    have hnext := hknown.reserveTask hsend hratio (hne task hmem) (hallowed task hmem)
      (mem_append_right _ (mem_singleton_self _))
    have hperm :
      (task.launchSpec :: tasks.map (·.launchSpec)).Perm
        (tasks.map (·.launchSpec) ++ [task.launchSpec]) :=
      (perm_append_singleton _ _).symm
    exact hnext.mono (fun _ => id) hperm.symm.subset hperm.symm.length_eq.le

/-! #### The other tasks -/

theorem reserveUnused_spec (hsend : ∀ n, (send n).numTasks = n) {launch : Nat}
    (hnodup : nodes.Nodup) {created : Nat}
    (hnew : ∀ node ∈ nodes, requests.lookup node = none) (henough : launch - created ≤ nodes.length)
    (hasks : Asks requests) :
    Asks (reserveUnused send launch created nodes requests) ∧
      ∃ added, (sent (reserveUnused send launch created nodes requests)).Perm
        (added ++ sent requests) ∧
        launch - created ≤ added.length := by
  induction nodes generalizing created requests with
  | nil => exact ⟨hasks, [], .refl _, henough⟩
  | cons node rest ih =>
    obtain ⟨hnode, hrest⟩ := nodup_cons.mp hnodup
    have hasks' : Asks (requests.insert node (send 1)) :=
      hasks.insert (by rw [hsend]; exact one_pos)
    have hsent : sent (requests.insert node (send 1)) = node :: sent requests := by
      rw [sent, HashMap.tokens_insert_new (hnew node mem_cons_self), hsend]
      rfl
    rw [reserveUnused]
    split
    · next hdone =>
        refine ⟨hasks', [node], .of_eq hsent, ?_⟩
        rw [length_singleton]
        omega
    · next hmore =>
        have hnew' : ∀ node' ∈ rest, (requests.insert node (send 1)).lookup node' = none := by
          intro node' hmem
          have hne : node' ≠ node := fun heq => hnode (heq ▸ hmem)
          rw [AList.lookup_insert_ne hne]
          exact hnew node' (mem_cons_of_mem node hmem)
        rw [length_cons] at henough
        have henough' : launch - (created + 1) ≤ rest.length := by omega
        obtain ⟨hasks'', added, hperm, hle⟩ := ih hrest hnew' henough' hasks'
        refine ⟨hasks'', added ++ [node], ?_, ?_⟩
        · rw [append_assoc, singleton_append, ← hsent]
          exact hperm
        · rw [length_append, length_singleton]
          omega

theorem requests_spec (shuffle : Shuffle InetSocketAddress) (hsend : ∀ n, (send n).numTasks = n)
    (hratio : 1 ≤ probeRatio)
    (hnodup : nodes.Nodup) (hasks : Asks requests)
    {n : Nat} (hn : n ≤ maxInt)
    (hspare : reservationsToLaunch probeRatio n ≤ (unusedNodeMonitors nodes requests).length) :
    ∃ requests',
    (if n > 0 then addRequestsForUnconstrainedTasks send probeRatio shuffle n nodes
      requests else requests) =
        requests' ∧ Asks requests' ∧ ∃ added, (sent requests').Perm (added ++ sent requests) ∧
        n ≤ added.length := by
  refine ⟨_, rfl, ?_⟩
  split
  · have hperm := shuffle.perm (unusedNodeMonitors nodes requests)
    have hnew :
      ∀ node ∈ shuffle.apply (unusedNodeMonitors nodes requests), requests.lookup node = none :=
      fun node hnode => of_decide_eq_true (mem_filter.mp (hperm.mem_iff.mp hnode)).2
    have henough :
      reservationsToLaunch probeRatio n - 0 ≤
      (shuffle.apply (unusedNodeMonitors nodes requests)).length := by
      rw [hperm.length_eq]
      exact hspare
    obtain ⟨hasks', added, hsent, hle⟩ :=
      reserveUnused_spec hsend (hperm.nodup_iff.mpr (hnodup.filter _)) hnew henough hasks
    exact ⟨hasks', added, hsent, (le_reservationsToLaunch hratio hn).trans hle⟩
  · next hzero => exact ⟨hasks, [], .refl _, Nat.le_of_not_lt hzero⟩

theorem lookup_populate
    {l : List (Sigma fun _ : InetSocketAddress => TEnqueueTaskReservationsRequest)}
    (hl : l.NodupKeys) (m : HashMap THostPort Nat) (addr : InetSocketAddress) :
    (l.foldl (fun m e => m.insert (socketAddressToThrift e.1) e.2.numTasks) m).lookup
      (socketAddressToThrift addr) =
      ((l.dlookup addr).map (·.numTasks)).or (m.lookup (socketAddressToThrift addr)) := by
  induction l generalizing m with
  | nil => rfl
  | cons e l ih =>
    obtain ⟨a, request⟩ := e
    obtain ⟨hnot, hl⟩ := nodupKeys_cons.mp hl
    rw [foldl_cons, ih hl]
    by_cases haddr : addr = a
    · subst haddr
      simp [dlookup_eq_none.mpr hnot]
    · rw [dlookup_cons_ne l ⟨a, request⟩ haddr,
        AList.lookup_insert_ne (socketAddressToThrift_injective.ne haddr)]

theorem populate_records (requests : EnqueueRequests) :
    Records requests (populateOutstandingReservations requests ∅) := by
  intro _
  rw [populateOutstandingReservations, lookup_populate requests.nodupKeys]
  exact Option.or_none

variable {getByName : String → Option InetAddress} {shuffles : Shuffles}
  {request : TSchedulingRequest}
  {requestId : String} {nodes : List InetSocketAddress} {schedulerAddress : THostPort}

/-- A constrained task may run where it prefers to, any other everywhere. -/
def MayRun (getByName : String → Option InetAddress) (request : TSchedulingRequest)
    (nodes : List InetSocketAddress) :
    Allowed :=
  fun spec node => ∀ task ∈ request.tasks, task.launchSpec = spec → task.Constrained →
    ∃ addr ∈ nodes, Prefers getByName task addr ∧ node = socketAddressToThrift addr

theorem eq_of_launchSpec (hids : (request.tasks.map (·.taskId)).Nodup) {task task' : TTaskSpec}
    (htask : task ∈ request.tasks) (htask' : task' ∈ request.tasks)
    (h : task.launchSpec = task'.launchSpec) :
    task = task' :=
  inj_on_of_nodup_map hids htask htask' (congrArg (·.taskId) h)

theorem launchSpecs_nodup (hids : (tasks.map (·.taskId)).Nodup) :
    (tasks.map (·.launchSpec)).Nodup := by
  refine Nodup.of_map (·.taskId) ?_
  rw [map_map]
  exact hids

/-- **The reservations of a request with constraints.** -/
theorem getEnqueueTaskReservationsRequests_spec (hratio : 1 ≤ probeRatio) (hnodup : nodes.Nodup)
    (hids : (request.tasks.map (·.taskId)).Nodup)
    (hknown : ∀ task ∈ request.tasks, task.Constrained →
      ∃ node ∈ nodes, Prefers getByName task node)
    (hspare : reservationsToLaunch probeRatio (request.tasks.filter (¬ ·.Constrained)).length ≤
      (unusedNodeMonitors nodes
        (constrainedRequests getByName shuffles request requestId nodes schedulerAddress probeRatio
          ⟨∅, ∅⟩).requests).length) :
    ∃ requests p pinned todo, (new requestId probeRatio).getEnqueueTaskReservationsRequests
      getByName shuffles request
        requestId nodes schedulerAddress = (requests, p) ∧
      Records requests p.outstandingReservations ∧ p.cancelled = false ∧
      todo.Perm (request.tasks.map (·.launchSpec)) ∧
      p.Inv (MayRun getByName request nodes) pinned todo := by
  have hperm := shuffles.taskList.perm request.tasks
  have hsend : ∀ n, (newRequest request requestId schedulerAddress n).numTasks = n := fun _ => rfl
  generalize hr :
    constrainedRequests getByName shuffles request requestId nodes schedulerAddress
      probeRatio ⟨∅, ∅⟩ = r
    at hspare
  rw [constrainedRequests, reserveTasks] at hr
  generalize htaskList : shuffles.taskList.apply request.tasks = taskList at hperm hr
  have hmem : ∀ task ∈ taskList, task ∈ request.tasks := fun task => hperm.mem_iff.mp
  have hspecs : (taskList.map (·.launchSpec)).Nodup :=
    launchSpecs_nodup ((hperm.map _).nodup_iff.mpr hids)
  -- the constrained tasks
  have hsound :
    r.Sound (MayRun getByName request nodes) ((taskList.filter (·.Constrained)).map (·.launchSpec))
      ((taskList.filter (·.Constrained)).map (·.launchSpec)) := by
    rw [← hr]
    refine reserveTasks_sound hsend (one_pos.trans_le hratio) (fun task htask => ?_)
      fun task htask addr haddr => ?_
    · obtain ⟨htask, hconstrained⟩ := mem_filter.mp htask
      obtain ⟨node, hnode, hprefers⟩ :=
        hknown task (hmem task htask) (of_decide_eq_true hconstrained)
      exact taskPreferencesToSocketList_ne_nil hnode hprefers
    · intro task' htask' heq _
      obtain rfl := eq_of_launchSpec hids htask' (hmem task (mem_of_mem_filter htask)) heq
      obtain ⟨hnode, hprefers⟩ := mem_taskPreferencesToSocketList haddr
      exact ⟨addr, hnode, hprefers, rfl⟩
  -- the unconstrained tasks
  have hcount :
    (request.tasks.filter (¬ ·.Constrained)).length = (taskList.filter (¬ ·.Constrained)).length :=
    (hperm.symm.filter _).length_eq
  rw [hcount] at hspare
  have hn : (taskList.filter (¬ ·.Constrained)).length ≤ maxInt :=
    (length_filter_le _ _).trans (hperm.length_eq.le.trans request.tasks_size)
  obtain ⟨requests, hrequests, hasks, added, hsent, hle⟩ :=
    requests_spec shuffles.unusedNodeMonitors hsend hratio hnodup hsound.asks hn hspare
  have hrecords := populate_records requests
  have htodo : ((taskList.filter (·.Constrained)).map (·.launchSpec) ++
      (taskList.filter (¬ ·.Constrained)).map (·.launchSpec)).Perm
        (request.tasks.map (·.launchSpec)) := by
    rw [← map_append]
    refine Perm.map _ (trans ?_ hperm)
    simpa only [decide_not] using filter_append_perm (fun task => decide task.Constrained) taskList
  refine ⟨requests,
    ⟨∅, r.unlaunched, populateOutstandingReservations requests ∅, false, request.tasks.length,
    probeRatio, requestId,
      (taskList.filter (¬ ·.Constrained)).map (·.launchSpec)⟩,
    (taskList.filter (·.Constrained)).map (·.launchSpec), _, ?_, hrecords, rfl, htodo, ?_⟩
  · simp only [getEnqueueTaskReservationsRequests, new, constrainedRequests, reserveTasks,
      htaskList, hr, nil_append, hrequests]
  · refine ⟨hspecs.sublist (filter_sublist.map _), ?_, ?_, hsound.listed, ?_, ?_, .inr ?_,
      hrecords.positive hasks⟩
    · simp
    · rw [htodo.length_eq, length_map]
    · intro spec hspec node task' htask' heq hconstrained
      obtain ⟨task, htask, rfl⟩ := mem_map.mp hspec
      obtain ⟨htask, hfree⟩ := mem_filter.mp htask
      obtain rfl := eq_of_launchSpec hids htask' (hmem task htask) heq
      exact absurd hconstrained (of_decide_eq_true hfree)
    · intro spec hspec _
      obtain ⟨addr, hcover⟩ := hsound.covers spec hspec
      refine ⟨socketAddressToThrift addr, ?_⟩
      rw [hrecords.count addr, hsent.count_eq addr, count_append]
      exact take_subset_take_left _ (le_add_left _ _) hcover
    · have hfree : ((taskList.filter (¬ ·.Constrained)).map (·.launchSpec)).length = _ :=
        length_map _
      have hlength : ((sent requests).map socketAddressToThrift).length = _ := length_map _
      rw [hrecords.perm.length_eq, hlength, hsent.length_eq, length_append, length_append,
        hfree, add_comm]
      exact Nat.add_le_add hle hsound.enough

end ConstrainedTaskPlacer

end CharmRuntime.Sparrow
