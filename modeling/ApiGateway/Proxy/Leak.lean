import ApiGateway.Proxy.Pool

/-!
# Responses of pooled connections

A connection that goes back to the pool takes along what has not been read from it, and `is_alive`
does not look at what it peeks. The main result is `no_leak`: if no response is longer than its head
announces, and `recv_all` is never cut short while bytes are outstanding, then idle connections have
been read to the end and every call returns bytes of its own response only. `leak_without_length`
is a run in which one response without a length makes the next call return foreign bytes.
-/

namespace ApiGateway.Proxy

namespace PoolSystem

/-- The bytes that a connection will deliver before those of its next response. -/
def unread (s : PoolSystem) (c : Nat) : List Marked :=
  match s.conns[c]? with
  | some conn => conn.unread
  | none => []

/-- The condition on a step: a response is not longer than announced, and a connection on which
`recv_all` times out or fails after some bytes has been read to the end. -/
def Allowed (s : PoolSystem) : Label → Prop
  | .called answer => Framed answer
  | .interrupted c => s.unread c = []
  | .other => True

/-- A run of such steps. -/
abbrev CleanRun (cfg : PoolConfig) : PoolSystem → PoolSystem → Prop :=
  Relation.ReflTransGen (fun s t => ∃ l, Step cfg s l t ∧ Allowed s l)

/-- The states that are reached by such steps. -/
def CleanReachable (cfg : PoolConfig) : PoolSystem → Prop :=
  CleanRun cfg {}

/-- A result that belongs to the request with number `q`. -/
def OwnResult (q : Nat) (answer : Bytes) : Result → Prop
  | .badGateway => True
  | .response bytes => bytes <+: answer.map (Prod.mk q)

/-- What is known about the connection and the bytes of a call at its stage. -/
def OwnStage (unread : Nat → List Marked) (q : Nat) (answer : Bytes) : Stage → Prop
  | .acquiring | .unconnected => True
  | .connecting c | .sending c => unread c = []
  | .receiving c r bytes =>
      r.Consistent ∧ r.resp = bytes.map Prod.snd ∧ bytes ++ unread c = answer.map (Prod.mk q)
  | .releasing c bytes | .pushing c bytes =>
      unread c = [] ∧ bytes <+: answer.map (Prod.mk q)
  | .evicting _ result | .returned result => OwnResult q answer result

/-- Idle connections are read to the end, and every call has only bytes of its own. -/
structure Clean (s : PoolSystem) : Prop where
  framed : ∀ call ∈ s.calls, Framed call.answer
  idle : ∀ k, ∀ c ∈ (s.pools k).idle, s.unread c = []
  stage : ∀ (q : Nat) (call : PoolCall), s.calls[q]? = some call →
    OwnStage s.unread q call.answer call.stage

variable {cfg : PoolConfig} {s t : PoolSystem} {q c : Nat} {call : PoolCall}
  {conn conn' : BackendConnection}

theorem unread_of_conn (hconn : s.conns[c]? = some conn) : s.unread c = conn.unread := by
  simp only [unread, hconn]

/-- Only the connection that has changed delivers something else. -/
theorem unread_set_conn (hconn : s.conns[c]? = some conn) (conn' : BackendConnection) (c' : Nat) :
    (s.setConn c conn').unread c' = if c' = c then conn'.unread else s.unread c' := by
  have hc := (List.getElem?_eq_some_iff.1 hconn).1
  simp only [unread, setConn]
  split_ifs with h
  · rw [h, List.getElem?_set_self hc]
  · rw [List.getElem?_set_ne (Ne.symm h)]

/-- A new connection delivers nothing, as one that does not exist. -/
theorem unread_add_conn (hnew : conn'.unread = []) (c' : Nat) :
    (s.addConn conn').unread c' = s.unread c' := by
  simp only [unread, addConn]
  rcases Nat.lt_trichotomy c' s.conns.length with hlt | rfl | hgt
  · rw [List.getElem?_append_left hlt]
  · rw [List.getElem?_concat_length, List.getElem?_eq_none (Nat.le_refl _)]
    exact hnew
  · rw [List.getElem?_eq_none (by simp; omega), List.getElem?_eq_none (by omega)]

/-- A stage is about the connection that the call holds. -/
theorem own_stage_congr {unread unread' : Nat → List Marked} {answer : Bytes} {stage : Stage}
    (hsame : ∀ c, stage.holds = some c → unread' c = unread c)
    (h : OwnStage unread q answer stage) : OwnStage unread' q answer stage := by
  cases stage with
  | acquiring | unconnected | evicting | returned => exact h
  | connecting c | sending c | receiving c | releasing c | pushing c =>
      simp only [OwnStage, hsame c rfl] at h ⊢
      exact h

/-- A call moves on and changes at most the connection it holds: the other calls and the idle
connections do not see it. -/
theorem Clean.move (hs : Clean s) (howned : Owned s) (hcall : s.calls[q]? = some call)
    {stage : Stage} (hcalls : t.calls = s.calls)
    (hidle : ∀ k, ∀ c ∈ (t.pools k).idle, c ∈ (s.pools k).idle ∨ t.unread c = [])
    (hunread : ∀ c, call.stage.holds ≠ some c → t.unread c = s.unread c)
    (hstage : OwnStage t.unread q call.answer stage) : Clean (t.move q call stage) := by
  have hcall' : t.calls[q]? = some call := by rw [hcalls, hcall]
  constructor
  case framed =>
    intro call' hmem
    rcases List.mem_or_eq_of_mem_set hmem with hmem | rfl
    · exact hs.framed call' (hcalls ▸ hmem)
    · exact hs.framed call (List.mem_of_getElem? hcall)
  case idle =>
    intro k c hc
    rcases hidle k c hc with hc | hc
    · exact (hunread c fun hholds => howned.notIdle q call c hcall hholds k hc).trans
        (hs.idle k c hc)
    · exact hc
  case stage =>
    intro q' call' hcall''
    rcases calls_move hcall' hcall'' with ⟨rfl, rfl⟩ | ⟨hne, hsame⟩
    · exact hstage
    · rw [hcalls] at hsame
      refine own_stage_congr (fun c hholds => hunread c fun hholds' => ?_) (hs.stage q' call' hsame)
      exact hne (howned.unique q' q call' call c hsame hcall hholds hholds')

theorem Clean.own (hs : Clean s) (hcall : s.calls[q]? = some call) {stage : Stage}
    (hstage : call.stage = stage) : OwnStage s.unread q call.answer stage :=
  hstage ▸ hs.stage q call hcall

/-- The same for a call that changes the connection it holds and nothing else. -/
theorem Clean.set (hs : Clean s) (howned : Owned s) (hcall : s.calls[q]? = some call)
    {stage stage' : Stage} (hstage : call.stage = stage) (hholds : stage.holds = some c)
    (hconn : s.conns[c]? = some conn)
    (hown : ∀ unread : Nat → List Marked, unread c = conn'.unread →
      OwnStage unread q call.answer stage') : Clean ((s.setConn c conn').move q call stage') := by
  have hunread := unread_set_conn hconn conn'
  refine hs.move howned hcall rfl (fun k c hc => .inl hc) (fun c' hc' => ?_) (hown _ ?_)
  · rw [hunread, if_neg]
    rintro rfl
    rw [hstage] at hc'
    exact hc' hholds
  · rw [hunread, if_pos rfl]

theorem clean_call (hs : Clean s) (backend : Core.Backend) {answer : Bytes}
    (hframed : Framed answer) : Clean { s with calls := s.calls ++ [{ backend, answer }] } := by
  refine ⟨fun call hmem => ?_, hs.idle, fun q call hcall => ?_⟩
  · rcases List.mem_append.1 hmem with hmem | hmem
    · exact hs.framed call hmem
    · rw [List.mem_singleton.1 hmem]
      exact hframed
  · rcases Table.get_append_iff.1 hcall with hold | ⟨-, rfl⟩
    · exact hs.stage q call hold
    · trivial

/-- The bytes of a `recv` that completes the response are its last ones. -/
theorem whole_of_complete {r : Received} {answer : Bytes} {bytes chunk rest : List Marked}
    (hr : r.Consistent) (hresp : r.resp = bytes.map Prod.snd)
    (hall : bytes ++ (chunk ++ rest) = answer.map (Prod.mk q)) (hframed : Framed answer)
    (hcomplete : (r.take (chunk.map Prod.snd)).complete = true) : rest = [] := by
  have hbytes : (bytes.map Prod.snd ++ chunk.map Prod.snd) ++ rest.map Prod.snd = answer := by
    have h := congrArg (List.map Prod.snd) hall
    simpa [Function.comp_def] using h
  have hwhole := complete_whole (Received.consistent_take hr (chunk.map Prod.snd)) hcomplete
    (by rw [Received.take_resp, hresp, ← hbytes]; exact List.prefix_append _ _) hframed
  rw [Received.take_resp, hresp] at hwhole
  exact List.map_eq_nil_iff.1 (List.append_right_eq_self.1 (hbytes.trans hwhole.symm))

theorem mem_set_active_count {k k' : Bytes} {activeCount : Nat}
    (h : c ∈ ((s.setEntry k { s.pools k with activeCount := activeCount }).pools k').idle) :
    c ∈ (s.pools k').idle :=
  List.Sublist.subset (sublist_set_entry (by exact .refl _) k') h

/-- A connection from an idle queue comes without bytes of an earlier response. -/
theorem clean_reuse (hs : Clean s) (howned : Owned s) (hcall : s.calls[q]? = some call)
    {dead rest : List Nat} (hidle : (s.pools call.key).idle = dead ++ c :: rest)
    (hconn : s.conns[c]? = some conn) (activeCount : Nat) (now : Int) :
    Clean (((s.setEntry call.key { idle := rest, activeCount }).setConn c (conn.touch now)).move q
      call (.sending c)) := by
  have hmem : c ∈ (s.pools call.key).idle := by simp [hidle]
  have hunread : ∀ c', (s.setConn c (conn.touch now)).unread c' = s.unread c' := by
    intro c'
    rw [unread_set_conn hconn]
    split_ifs with hc
    · rw [hc, unread_of_conn hconn]
      rfl
    · rfl
  exact hs.move howned hcall rfl
    (fun k c' hc' => .inl ((sublist_set_entry (sublist_of_taken hidle) k).subset hc'))
    (fun c' _ => hunread c') ((hunread c).trans (hs.idle _ c hmem))

theorem clean_create (hs : Clean s) (howned : Owned s) (hcall : s.calls[q]? = some call)
    (activeCount : Nat) :
    Clean (((s.setEntry call.key { idle := [], activeCount }).addConn
      { host := call.backend.host, port := call.backend.port }).move q call
        (.connecting s.conns.length)) := by
  have hunread : ∀ c', (s.addConn { host := call.backend.host, port := call.backend.port
      }).unread c' = s.unread c' := unread_add_conn rfl
  refine hs.move howned hcall rfl
    (fun k c' hc' => .inl ((sublist_set_entry (List.nil_sublist _) k).subset hc'))
    (fun c' _ => hunread c') ((hunread _).trans ?_)
  simp only [unread, List.getElem?_eq_none (Nat.le_refl _)]

/-- A connection that goes back to its queue has been read to the end. -/
theorem clean_push (hs : Clean s) (howned : Owned s) (hcall : s.calls[q]? = some call)
    {bytes : List Marked} (hstage : call.stage = .pushing c bytes) (room : Prop) [Decidable room]
    (activeCount : Nat) :
    Clean ((s.setEntry call.key
      { idle := if room then (s.pools call.key).idle ++ [c] else (s.pools call.key).idle
        activeCount }).move q call (.returned (.response bytes))) := by
  have hown := hs.own hcall hstage
  refine hs.move howned hcall rfl (fun k c' hc' => ?_) (fun _ _ => rfl) hown.2
  split_ifs at hc' with hroom
  · refine (mem_set_entry_push hc').imp_right fun h => ?_
    rw [h.2]
    exact hown.1
  · exact .inl (mem_set_active_count hc')

/-- Every allowed step keeps the connections clean. -/
theorem clean_step {l : Label} (hs : Clean s) (howned : Owned s) (h : Step cfg s l t)
    (hallowed : Allowed s l) : Clean t := by
  cases h with
  | call backend answer => exact clean_call hs backend hallowed
  | reuse hcall hstage hidle hconn halive => exact clean_reuse hs howned hcall hidle hconn _ _
  | create hcall hstage => exact clean_create hs howned hcall _
  | @connected q c call conn now hcall hstage hconn =>
      have hown := hs.own hcall hstage
      simp only [OwnStage, unread_of_conn hconn] at hown
      exact hs.set howned hcall hstage rfl hconn fun unread h => h.trans hown
  | @sent q c call conn hcall hstage hconn =>
      have hown := hs.own hcall hstage
      simp only [OwnStage, unread_of_conn hconn] at hown
      refine hs.set howned hcall hstage rfl hconn fun unread h => ?_
      exact ⟨Received.consistent_start, rfl, by simp [h, hown]⟩
  | @recv q c call conn r bytes chunk rest hcall hstage hconn hunread hne hsize hmore =>
      obtain ⟨hr, hresp, hall⟩ := hs.own hcall hstage
      rw [unread_of_conn hconn, hunread] at hall
      refine hs.set howned hcall hstage rfl hconn fun unread h => ?_
      refine ⟨Received.consistent_take hr _, by simp [hresp], ?_⟩
      rw [h, List.append_assoc]
      exact hall
  | @recvLast q c call conn r bytes chunk rest now hcall hstage hconn hunread hne hsize hcomplete =>
      obtain ⟨hr, hresp, hall⟩ := hs.own hcall hstage
      rw [unread_of_conn hconn, hunread] at hall
      have hframed := hs.framed call (List.mem_of_getElem? hcall)
      -- the bytes that have been read are the whole response
      have hrest := whole_of_complete hr hresp hall hframed hcomplete
      refine hs.set howned hcall hstage rfl hconn fun unread h => ⟨h.trans hrest, ?_⟩
      rw [← hall, ← List.append_assoc]
      exact List.prefix_append _ _
  | @interrupted q c call conn r bytes now hcall hstage hconn hne =>
      obtain ⟨-, -, hall⟩ := hs.own hcall hstage
      have hread : conn.unread = [] := (unread_of_conn hconn).symm.trans hallowed
      refine hs.set howned hcall hstage rfl hconn fun unread h => ?_
      exact ⟨h.trans hread, List.prefix_iff_exists_append_eq.2 ⟨_, hall⟩⟩
  | @eof q c call conn r bytes hcall hstage hconn hunread hne =>
      obtain ⟨-, -, hall⟩ := hs.own hcall hstage
      refine hs.set howned hcall hstage rfl hconn fun unread h => ?_
      exact ⟨h.trans hunread, List.prefix_iff_exists_append_eq.2 ⟨_, hall⟩⟩
  | silent hcall hstage hconn =>
      exact hs.set howned hcall hstage rfl hconn fun unread h => trivial
  | connectFailed hcall hstage | sendFailed hcall hstage =>
      exact hs.move howned hcall rfl (fun k c hc => .inl hc) (fun _ _ => rfl) trivial
  | alive hcall hstage hconn halive =>
      have hown := hs.own hcall hstage
      exact hs.move howned hcall rfl (fun k c hc => .inl hc) (fun _ _ => rfl) hown
  | dead hcall hstage =>
      exact hs.move howned hcall rfl (fun k c hc => .inl hc) (fun _ _ => rfl)
        (hs.own hcall hstage).2
  | rollback hcall hstage =>
      exact hs.move howned hcall rfl (fun k c hc => .inl (mem_set_active_count hc))
        (fun _ _ => rfl) trivial
  | evict hcall hstage =>
      have hown := hs.own hcall hstage
      exact hs.move howned hcall rfl (fun k c hc => .inl (mem_set_active_count hc))
        (fun _ _ => rfl) hown
  | push hcall hstage => exact clean_push hs howned hcall hstage _ _
  | cleanup now =>
      exact ⟨hs.framed, fun k c hc => hs.idle k c ((sublist_cleanup_idle cfg s now k).subset hc),
        hs.stage⟩

theorem run_of_clean_run (h : CleanRun cfg s t) :
    Relation.ReflTransGen (fun s t => ∃ l, Step cfg s l t) s t :=
  Relation.ReflTransGen.mono (fun _ _ ⟨l, hstep, _⟩ => ⟨l, hstep⟩) _ _ h

theorem clean_of_reachable (h : CleanReachable cfg s) : Clean s := by
  induction h with
  | refl => exact ⟨nofun, nofun, nofun⟩
  | tail hs h ih =>
      obtain ⟨l, hstep, hallowed⟩ := h
      exact clean_step ih (inv_reachable (run_of_clean_run hs)).1 hstep hallowed

/-- If no response is longer than announced and no read is cut short while bytes are outstanding,
then every connection in an idle queue has been read to the end, and every response that a call
returns consists of bytes of the response to its own request. -/
theorem no_leak (cfg : PoolConfig) (s : PoolSystem) (hs : CleanReachable cfg s) :
    (∀ k, ∀ c ∈ (s.pools k).idle, s.unread c = []) ∧
      ∀ (q : Nat) (call : PoolCall) (bytes : List Marked), s.calls[q]? = some call →
        call.stage = .returned (.response bytes) → bytes <+: call.answer.map (Prod.mk q) := by
  have hclean := clean_of_reachable hs
  refine ⟨hclean.idle, fun q call bytes hcall hstage => ?_⟩
  have hown := hclean.stage q call hcall
  simpa only [hstage, OwnStage, OwnResult] using hown

/-! ## Runs on one connection -/

section OneConnection

variable (backend : Core.Backend)

/-- A pool with one connection, on which the given bytes are unread. -/
def single (entry : PoolEntry) (unread : List Marked) (calls : List PoolCall) : PoolSystem where
  pools := Function.update (fun _ => {}) (makeKey backend.host backend.port) entry
  conns := [{ host := backend.host, port := backend.port, isOpen := true, unread }]
  calls := calls

/-- The first call of a pool, with a connection that has just been created. -/
def firstCreated (answer : Bytes) : PoolSystem :=
  ((setEntry { calls := [{ backend, answer }] } (makeKey backend.host backend.port)
    { idle := [], activeCount := 1 }).addConn { host := backend.host, port := backend.port }).move 0
      { backend, answer } (.connecting 0)

/-- The first call creates a connection. -/
theorem create_run (answer : Bytes) :
    CleanRun onePool { calls := [{ backend, answer }] } (single backend { activeCount := 1 } []
      [{ backend, answer, stage := .sending 0 }]) := by
  have hcreate := @Step.create onePool { calls := [{ backend, answer }] } 0 { backend, answer }
    rfl rfl
  have hconnect := @Step.connected onePool (firstCreated backend answer) 0 0
    { backend, answer, stage := .connecting 0 } { host := backend.host, port := backend.port } 0
    rfl rfl rfl
  exact (Relation.ReflTransGen.single ⟨_, hcreate, trivial⟩).tail ⟨_, hconnect, trivial⟩

/-- A call takes the connection from the pool. -/
theorem reuse_run (unread : List Marked) (calls : List PoolCall) (answer : Bytes) :
    CleanRun onePool
      (single backend { idle := [0] } unread (calls ++ [{ backend := backend, answer }]))
      (single backend { activeCount := 1 } unread
        (calls ++ [{ backend, answer, stage := .sending 0 }])) := by
  have hreuse := @Step.reuse onePool
    (single backend { idle := [0] } unread (calls ++ [{ backend := backend, answer }]))
    calls.length 0
    { backend, answer } { host := backend.host, port := backend.port, isOpen := true, unread } 0
    [] [] List.getElem?_concat_length rfl
    (by simp [single, PoolCall.key]) rfl rfl
  refine .single ⟨.other, ?_, trivial⟩
  simpa [single, setEntry, setConn, move, PoolCall.key, BackendConnection.touch] using hreuse

/-- A call sends its request, reads one segment that it takes for the whole response, and gives the
connection back. -/
theorem exchange_run (unread chunk rest : List Marked) (calls : List PoolCall) (answer : Bytes)
    (hunread : unread ++ answer.map (Prod.mk calls.length) = chunk ++ rest) (hne : chunk ≠ [])
    (hsize : chunk.length ≤ 4096)
    (hcomplete : (({} : Received).take (chunk.map Prod.snd)).complete = true) :
    CleanRun onePool
      (single backend { activeCount := 1 } unread
        (calls ++ [{ backend, answer, stage := .sending 0 }]))
      (single backend { idle := [0] } rest
        (calls ++ [{ backend, answer, stage := .returned (.response chunk) }])) := by
  have hget : ∀ stage : Stage, (calls ++ [{ backend, answer, stage : PoolCall }])[calls.length]? =
      some { backend, answer, stage } := fun _ => List.getElem?_concat_length
  have hsent := @Step.sent onePool (single backend { activeCount := 1 } unread _) calls.length 0
    _ _ (hget (.sending 0)) rfl rfl
  have hrecv := @Step.recvLast onePool (single backend { activeCount := 1 } (chunk ++ rest) _)
    calls.length 0 _ _ {} [] chunk rest 0 (hget (.receiving 0 {} [])) rfl rfl rfl hne
      hsize hcomplete
  have halive := @Step.alive onePool (single backend { activeCount := 1 } rest _) calls.length 0
    _ _ chunk (hget (.releasing 0 chunk)) rfl rfl rfl
  have hpush := @Step.push onePool (single backend { activeCount := 1 } rest _) calls.length 0
    _ chunk (hget (.pushing 0 chunk)) rfl
  simp only [single, setEntry, setConn, move, PoolCall.key, BackendConnection.touch, hunread,
    onePool, List.nil_append, List.set_cons_zero, Function.update_self, Function.update_idem,
    List.set_append_right, Nat.le_refl, Nat.sub_self] at hsent hrecv halive hpush
  exact (((Relation.ReflTransGen.single ⟨_, hsent, trivial⟩).tail ⟨_, hrecv, trivial⟩).tail
    ⟨_, halive, trivial⟩).tail ⟨_, hpush, trivial⟩

end OneConnection

/-- A backend with an address. -/
def host : Core.Backend := { host := ascii "10.0.0.1", port := 80 }

/-- A response that announces its body of two bytes. -/
def announced : Bytes := ascii "HTTP/1.1 200 OK\r\nContent-Length: 2\r\n\r\nhi"

/-- A response with the same body that does not announce it. -/
def unannounced : Bytes := ascii "HTTP/1.1 200 OK\r\n\r\nhi"

theorem no_leak_announced :
    ∃ s, CleanReachable onePool s ∧ (∀ k, ∀ c ∈ (s.pools k).idle, s.unread c = []) ∧
      (s.pools (makeKey (ascii "10.0.0.1") 80)).idle = [0] ∧
      s.calls.map PoolCall.stage = [.returned (.response (announced.map (Prod.mk 0)))] := by
  have hrun : CleanReachable onePool (single host { idle := [0] } []
      [{ backend := host, answer := announced,
         stage := .returned (.response (announced.map (Prod.mk 0))) }]) := by
    refine (Relation.ReflTransGen.single ⟨_, .call host announced, ?_⟩).trans
      ((create_run host announced).trans
        (exchange_run host [] (announced.map (Prod.mk 0)) [] [] announced (by simp) (by decide)
          (by decide) (by decide)))
    show Framed announced
    intro head rest hcut _
    have hhead : head = ascii "HTTP/1.1 200 OK\r\nContent-Length: 2" := by
      have hall := congrArg (Option.map Prod.fst) hcut
      exact (Option.some.inj hall).symm
    subst hhead
    decide
  exact ⟨_, hrun, (no_leak onePool _ hrun).1, by simp [single, host], rfl⟩

/-- The first response announces no length, so that `recv_all` is done after its head. The
connection goes back to the pool with the body unread, and the next call returns that body in front
of its own response. -/
theorem leak_without_length :
    ∃ s t, Reachable onePool s ∧ Reachable onePool t ∧
      (s.pools (makeKey (ascii "10.0.0.1") 80)).idle = [0] ∧
      s.unread 0 = (ascii "hi").map (Prod.mk 0) ∧
      t.calls.map PoolCall.stage =
        [.returned (.response ((ascii "HTTP/1.1 200 OK\r\n\r\n").map (Prod.mk 0))),
         .returned (.response
          ((ascii "hi").map (Prod.mk 0) ++ announced.map (Prod.mk 1)))] := by
  have hfirst : Reachable onePool (single host { idle := [0] } ((ascii "hi").map (Prod.mk 0))
      [{ backend := host, answer := unannounced, stage := .returned (.response
          ((ascii "HTTP/1.1 200 OK\r\n\r\n").map (Prod.mk 0))) }]) :=
    (Relation.ReflTransGen.single ⟨_, .call host unannounced⟩).trans
      (run_of_clean_run ((create_run host unannounced).trans
        (exchange_run host [] ((ascii "HTTP/1.1 200 OK\r\n\r\n").map (Prod.mk 0)) _ [] unannounced
          (by decide) (by decide) (by decide) (by decide))))
  have hsecond := (hfirst.tail ⟨_, .call host announced⟩).trans
    (run_of_clean_run ((reuse_run host _ [_] announced).trans
      (exchange_run host _ ((ascii "hi").map (Prod.mk 0) ++ announced.map (Prod.mk 1)) [] [_]
        announced (by simp) (by decide) (by decide) (by decide))))
  exact ⟨_, _, hfirst, hsecond, by simp [single, host], rfl, rfl⟩

end PoolSystem

end ApiGateway.Proxy
