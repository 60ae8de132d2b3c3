import PicoRuby.Net.Udp

/-!
# UDPClient_send

What `UDPClient_send` leaves, in every run of the datagrams with it.
-/

namespace PicoRuby.Net.Udp

open Shared

set_option autoImplicit false

/-! ## What is promised -/

/-- What holds of a world that is reached from a call. -/
structure Sound (initial : Bytes) (w : World) : Prop where
  known : w.astray = false
  answered : w.point = .done → (w.ret = true ↔ w.heard = true)
  complete : w.point = .done → w.ret = true →
    w.heap.read w.res.recvData = some (initial ++ w.received.flatten) ∧
      w.res.recvDataLen = (initial ++ w.received.flatten).length
  current : w.point = .done → ∃ contents, w.heap.Only w.res.recvData contents

/-- However the datagrams come, the main program makes no more than some number of steps. -/
def Terminates (dns : Dns) (initial : Bytes) : Prop :=
  ∃ n, ∀ as w, Run Step (fun _ _ => True) (World.call dns initial) as w → (as.filter Action.isMain).length ≤ n

/-- Where the response is taken, or will not be any more. -/
def Point.taken (p : Point) : Prop := p = .takeLen ∨ p = .result ∨ p = .close

/-- No datagram comes before the fields are set, after the last poll has seen one, or once the response is taken.
None has come when the time is over, or when nothing could be sent. -/
def Allowed (w : World) : Action → Prop
  | .main _ => (w.point = .exit → w.maxWait ≤ 0 → w.received = []) ∧
      (w.point = .poll → w.cs.state = .error → w.received = [])
  | .datagram _ => w.point ≠ .fields ∧ w.cs.state ≠ .finished ∧ ¬ w.point.taken

/-! ## The invariant -/

/-- What holds wherever the main program is. -/
structure Core (initial : Bytes) (w : World) : Prop where
  known : w.astray = false
  only : w.heap.Only w.cs.recvData (initial ++ w.received.flatten)
  length : w.cs.recvDataLen = (initial ++ w.received.flatten).length
  heard : w.heard = true → w.received ≠ []
  finished : w.cs.state = .finished → w.heard = true

namespace World

/-- The response has what the connection has. -/
def Taken (w : World) : Prop := w.res = ⟨w.cs.recvData, w.cs.recvDataLen⟩

/-- The response is as it was, and so it is what the connection has or it is out of date. -/
def Untaken (w : World) : Prop :=
  (w.received = [] → w.Taken) ∧ (w.received ≠ [] → w.heap.Dead w.res.recvData)

/-- Nothing can come yet. -/
structure Early (w : World) : Prop where
  received : w.received = []
  taken : w.Taken
  heard : w.heard = false
  ret : w.ret = false

/-- The state that the end of the call goes by. -/
def Decided (w : World) : Prop := w.heard = true ↔ w.cs.state = .finished

def Waiting (w : World) : Prop := w.cs.state = .waiting ∨ w.cs.state = .received ∧ w.received ≠ []

/-- What holds at a point of the main program. -/
def Place (w : World) : Prop :=
  match w.point with
  | .sendto | .sent _ => w.Untaken ∧ w.cs.state ≠ .finished
  | .poll => w.Untaken ∧ (w.Waiting ∨ w.cs.state = .error)
  | .finish => w.Untaken ∧ w.heard = true ∧ w.cs.state ≠ .finished
  | .pollReturn | .wait => w.Untaken ∧ w.Waiting
  | .exit => w.Untaken ∧ (0 < w.maxWait → w.Decided)
  | .takeData => w.Untaken ∧ w.Decided
  | .takeLen => w.res.recvData = w.cs.recvData ∧ w.Decided
  | .result => w.Taken ∧ w.Decided
  | .close | .done => w.Taken ∧ (w.ret = true ↔ w.heard = true)
  | _ => w.Early

end World

/-- The invariant of the runs in which all goes well. -/
structure Inv (initial : Bytes) (w : World) : Prop where
  core : Core initial w
  place : w.Place

section Invariant
variable {initial : Bytes} {w w' : World}

theorem Inv.sound (h : Inv initial w) : Sound initial w := by
  have hdone (hpoint : w.point = .done) : w.Taken ∧ (w.ret = true ↔ w.heard = true) := by
    have hplace := h.place
    unfold World.Place at hplace
    rw [hpoint] at hplace
    exact hplace
  refine ⟨h.core.known, fun hpoint => (hdone hpoint).2, ?_, ?_⟩
  · intro hpoint _
    rw [(hdone hpoint).1]
    exact ⟨h.core.only.read, h.core.length⟩
  · intro hpoint
    rw [(hdone hpoint).1]
    exact ⟨_, h.core.only⟩

/-- What the main program has of its own does not matter. -/
theorem Core.frame (h : Core initial w) (point : Point) (dns : Dns) (ip : UInt32) (res : Response) (maxWait : Int)
    (ret : Bool) : Core initial { w with point, dns, ip, res, maxWait, ret } :=
  ⟨h.known, h.only, h.length, h.heard, h.finished⟩

theorem Core.goto (h : Core initial w) (point : Point) : Core initial (w.goto point) :=
  h.frame point w.dns w.ip w.res w.maxWait w.ret

theorem Core.setState (h : Core initial w) {state : UdpState} (hstate : state = .finished → w.heard = true) :
    Core initial (w.setState state) :=
  ⟨h.known, h.only, h.length, h.heard, hstate⟩

theorem World.Early.untaken (h : w.Early) : w.Untaken := ⟨fun _ => h.taken, fun hne => absurd h.received hne⟩

/-- A datagram is put behind what was received, in a new block. -/
theorem recvCb_contents (h : Core initial w) (p : Pbuf) :
    w.recvCb p = { w with
      heap := (w.heap.realloc w.cs.recvData (initial ++ (w.received ++ [p.bytes]).flatten)).2
      cs := ⟨.received, (w.heap.realloc w.cs.recvData (initial ++ (w.received ++ [p.bytes]).flatten)).1,
        (initial ++ (w.received ++ [p.bytes]).flatten).length⟩
      received := w.received ++ [p.bytes] } := by
  have hflatten : initial ++ (w.received ++ [p.bytes]).flatten = initial ++ w.received.flatten ++ p.bytes := by
    rw [List.flatten_append, List.flatten_singleton, List.append_assoc]
  have hlen : w.cs.recvDataLen + p.totLen = (initial ++ (w.received ++ [p.bytes]).flatten).length := by
    rw [hflatten, List.length_append, h.length]
    rfl
  have hpayload : p.copyPartial p.totLen = p.bytes := List.take_length
  have hcontents : ((w.heap.read w.cs.recvData).getD []).take w.cs.recvDataLen ++ p.copyPartial p.totLen =
      initial ++ (w.received ++ [p.bytes]).flatten := by
    rw [h.only.read, Option.getD_some, h.length, List.take_length, hpayload, hflatten]
  unfold World.recvCb
  dsimp only
  rw [hcontents, hlen]

theorem Core.recvCb (h : Core initial w) (p : Pbuf) : Core initial (w.recvCb p) := by
  rw [recvCb_contents h p]
  exact ⟨h.known, h.only.realloc _, rfl, fun _ => List.append_ne_nil_of_right_ne_nil _ (List.cons_ne_nil _ _), nofun⟩

theorem recvCb_dead (h : Core initial w) (hres : w.res.recvData = w.cs.recvData) (p : Pbuf) :
    (w.recvCb p).heap.Dead w.res.recvData := by
  rw [recvCb_contents h p, hres]
  exact h.only.dead_realloc _

/-- Where the response is not taken yet, it is out of date once a datagram has come. -/
theorem recvCb_untaken (h : Core initial w) (huntaken : w.Untaken) (p : Pbuf) : (w.recvCb p).Untaken := by
  refine ⟨fun hempty => absurd hempty (List.append_ne_nil_of_right_ne_nil _ (List.cons_ne_nil _ _)), fun _ => ?_⟩
  by_cases hempty : w.received = []
  · apply recvCb_dead h
    exact congrArg Response.recvData (huntaken.1 hempty)
  · exact (huntaken.2 hempty).realloc _

theorem call_inv (dns : Dns) (initial : Bytes) : Inv initial (World.call dns initial) := by
  have hnothing : initial ++ ([] : List Bytes).flatten = initial := List.append_nil initial
  refine ⟨⟨rfl, ?_, congrArg List.length hnothing.symm, nofun, nofun⟩, rfl, rfl, rfl, rfl⟩
  apply Eq.subst hnothing.symm (motive := fun contents => (Heap.single initial).Only 0 contents)
  exact Heap.single_only initial

/-! ## Steps -/

theorem isEmpty_heard (received : List Bytes) : (!received.isEmpty) = true ↔ received ≠ [] := by
  cases received with
  | nil => exact iff_of_false nofun (fun hne => hne rfl)
  | cons b received => exact iff_of_true rfl nofun

/-- The last look at the state, or one of those before it. -/
theorem pollState_keeps (h : Core initial w) (huntaken : w.Untaken) (hstate : w.Waiting ∨ w.cs.state = .error)
    (hok : w.cs.state = .error → w.received = []) : Inv initial w.pollState := by
  have hcore (point : Point) (hfinished : w.cs.state ≠ .finished) :
      Core initial ({ w with heard := !w.received.isEmpty }.goto point) :=
    ⟨h.known, h.only, h.length, (isEmpty_heard w.received).mp, fun hstate => absurd hstate hfinished⟩
  unfold World.pollState
  rcases hstate with (hwaiting | ⟨hreceived, hne⟩) | herror
  · dsimp only
    rw [hwaiting]
    exact ⟨hcore _ (hwaiting ▸ nofun), huntaken, .inl hwaiting⟩
  · have hfinished : w.cs.state ≠ .finished := by
      rw [hreceived]
      nofun
    dsimp only
    rw [hreceived]
    exact ⟨hcore _ hfinished, huntaken, (isEmpty_heard w.received).mpr hne, hfinished⟩
  · have hfinished : w.cs.state ≠ .finished := by
      rw [herror]
      nofun
    have hheard : ¬ (!w.received.isEmpty) = true := fun hheard => (isEmpty_heard w.received).mp hheard (hok herror)
    dsimp only
    rw [herror]
    exact ⟨hcore _ hfinished, huntaken, fun _ => iff_of_false hheard hfinished⟩

theorem sleep_keeps (h : Core initial w) (hearly : w.Early) (hpoint : w.point = .lookup) : Inv initial w.sleep := by
  have hkeeps (dns : Dns) (ip : UInt32) : Inv initial { w with dns, ip } := by
    refine ⟨h.frame w.point dns ip w.res w.maxWait w.ret, ?_⟩
    unfold World.Place
    dsimp only
    rw [hpoint]
    exact ⟨hearly.received, hearly.taken, hearly.heard, hearly.ret⟩
  unfold World.sleep
  split
  · exact hkeeps _ _
  · exact hkeeps _ w.ip
  · exact hkeeps w.dns w.ip

theorem main_keeps (h : Inv initial w) (ok : Bool) (hok : Allowed w (.main ok)) : Inv initial (w.main ok) := by
  have hcore := h.core
  have hplace := h.place
  obtain ⟨hexit, hpoll⟩ := hok
  unfold World.Place at hplace
  unfold World.main
  cases hpoint : w.point with
  | resolve =>
    rw [hpoint] at hplace
    dsimp only
    split
    · exact ⟨hcore.frame _ _ _ _ _ _, hplace.received, hplace.taken, hplace.heard, hplace.ret⟩
    · exact ⟨hcore.goto _, hplace.received, hplace.taken, hplace.heard, hplace.ret⟩
  | lookup =>
    rw [hpoint] at hplace
    dsimp only
    split
    · exact sleep_keeps hcore hplace hpoint
    · exact ⟨hcore.goto _, hplace.received, hplace.taken, hplace.heard, hplace.ret⟩
  | connection =>
    rw [hpoint] at hplace
    dsimp only
    split
    · exact ⟨hcore.goto _, hplace.received, hplace.taken, hplace.heard, hplace.ret⟩
    · have hneither : w.ret = true ↔ w.heard = true := by rw [hplace.ret, hplace.heard]
      exact ⟨hcore.goto _, hplace.taken, hneither⟩
  | fields =>
    rw [hpoint] at hplace
    dsimp only
    have hblock : w.res.recvData = w.cs.recvData := congrArg Response.recvData hplace.taken
    have hlen : w.res.recvDataLen = w.cs.recvDataLen := congrArg Response.recvDataLen hplace.taken
    rw [hblock, hlen]
    exact ⟨⟨hcore.known, hcore.only, hcore.length, hcore.heard, nofun⟩, hplace.untaken, nofun⟩
  | sendto =>
    rw [hpoint] at hplace
    exact ⟨hcore.goto _, hplace⟩
  | sent ok =>
    rw [hpoint] at hplace
    cases ok with
    | true =>
      have hset : Core initial (w.setState .waiting) := hcore.setState nofun
      exact ⟨hset.goto _, hplace.1, .inl (.inl rfl)⟩
    | false =>
      have hset : Core initial (w.setState .error) := hcore.setState nofun
      exact ⟨hset.goto _, hplace.1, .inr rfl⟩
  | poll =>
    rw [hpoint] at hplace
    exact pollState_keeps hcore hplace.1 hplace.2 (hpoll hpoint)
  | finish =>
    rw [hpoint] at hplace
    exact ⟨(hcore.setState fun _ => hplace.2.1).goto _, hplace.1, fun _ => iff_of_true hplace.2.1 rfl⟩
  | pollReturn =>
    rw [hpoint] at hplace
    dsimp only
    rw [if_pos]
    · exact ⟨hcore.goto _, hplace⟩
    · rcases hplace.2 with hstate | ⟨hstate, -⟩
      · rw [hstate]
        nofun
      · rw [hstate]
        nofun
  | wait =>
    rw [hpoint] at hplace
    have hleft : Core initial { w with maxWait := w.maxWait - 1 } := hcore.frame _ _ _ _ _ _
    dsimp only
    split
    · exact ⟨hleft.goto _, hplace.1, .inl hplace.2⟩
    · rename_i hwait
      refine ⟨hleft.goto _, hplace.1, fun hpos => absurd hpos ?_⟩
      change ¬ 0 < w.maxWait - 1
      omega
  | exit =>
    rw [hpoint] at hplace
    dsimp only
    split
    · rename_i htime
      have hnone := hexit hpoint htime
      have hheard : ¬ w.heard = true := fun hheard => hcore.heard hheard hnone
      exact ⟨hcore.goto _, hplace.1.1 hnone, iff_of_false hheard fun hstate => hheard (hcore.finished hstate)⟩
    · rename_i htime
      exact ⟨hcore.goto _, hplace.1, hplace.2 (Int.not_le.mp htime)⟩
  | takeData =>
    rw [hpoint] at hplace
    exact ⟨hcore.frame _ _ _ _ _ _, rfl, hplace.2⟩
  | takeLen =>
    rw [hpoint] at hplace
    refine ⟨hcore.frame _ _ _ _ _ _, ?_, hplace.2⟩
    change (⟨w.res.recvData, w.cs.recvDataLen⟩ : Response) = ⟨w.cs.recvData, w.cs.recvDataLen⟩
    rw [hplace.1]
  | result =>
    rw [hpoint] at hplace
    refine ⟨hcore.frame _ _ _ _ _ _, hplace.1, ?_⟩
    apply Iff.trans _ hplace.2.symm
    exact decide_eq_true_iff
  | close =>
    rw [hpoint] at hplace
    exact ⟨hcore.goto _, hplace⟩
  | done =>
    rw [hpoint] at hplace
    refine ⟨hcore, ?_⟩
    unfold World.Place
    rw [hpoint]
    exact hplace

theorem datagram_keeps (h : Inv initial w) (p : Pbuf) (hregistered : w.point.registered)
    (hok : Allowed w (.datagram p)) : Inv initial (w.datagram p) := by
  obtain ⟨hfields, hfinished, htaken⟩ := hok
  obtain ⟨hresolve, hlookup, hconnection, hdone⟩ := hregistered
  have hplace := h.place
  have hnext := h.core.recvCb p
  have hwaiting : (w.recvCb p).Waiting :=
    .inr ⟨rfl, List.append_ne_nil_of_right_ne_nil _ (List.cons_ne_nil _ _)⟩
  have hdecided (hbefore : w.Decided) : (w.recvCb p).Decided :=
    iff_of_false (fun hheard => hfinished (hbefore.mp hheard)) nofun
  have huntaken (hbefore : w.Untaken) := recvCb_untaken h.core hbefore p
  unfold World.datagram
  rw [if_neg hfields]
  refine ⟨hnext, ?_⟩
  unfold World.Place at hplace ⊢
  have hpoint : (w.recvCb p).point = w.point := rfl
  rw [hpoint]
  cases hat : w.point with
  | resolve => exact absurd hat hresolve
  | lookup => exact absurd hat hlookup
  | connection => exact absurd hat hconnection
  | fields => exact absurd hat hfields
  | sendto =>
    rw [hat] at hplace
    exact ⟨huntaken hplace.1, nofun⟩
  | sent ok =>
    rw [hat] at hplace
    exact ⟨huntaken hplace.1, nofun⟩
  | poll =>
    rw [hat] at hplace
    exact ⟨huntaken hplace.1, .inl hwaiting⟩
  | finish =>
    rw [hat] at hplace
    exact ⟨huntaken hplace.1, hplace.2.1, nofun⟩
  | pollReturn =>
    rw [hat] at hplace
    exact ⟨huntaken hplace.1, hwaiting⟩
  | wait =>
    rw [hat] at hplace
    exact ⟨huntaken hplace.1, hwaiting⟩
  | exit =>
    rw [hat] at hplace
    exact ⟨huntaken hplace.1, fun hpos => hdecided (hplace.2 hpos)⟩
  | takeData =>
    rw [hat] at hplace
    exact ⟨huntaken hplace.1, hdecided hplace.2⟩
  | takeLen => exact absurd (.inl hat) htaken
  | result => exact absurd (.inr (.inl hat)) htaken
  | close => exact absurd (.inr (.inr hat)) htaken
  | done => exact absurd hat hdone

theorem step_keeps (h : Inv initial w) {a : Action} (hok : Allowed w a) (hstep : Step w a w') : Inv initial w' := by
  cases hstep with
  | main ok _ => exact main_keeps h ok hok
  | datagram p hregistered => exact datagram_keeps h p hregistered hok

/-! ## What goes wrong -/

/-- The call will return false, or has, for all that it has heard. -/
inductive Denied (w : World) : Prop where
  | later (heard : w.heard = true) (state : w.cs.state ≠ .finished)
      (point : w.point = .exit ∨ w.point = .takeData ∨ w.point = .takeLen ∨ w.point = .result)
  | returned (heard : w.heard = true) (ret : w.ret = false) (point : w.point = .close ∨ w.point = .done)

/-- What cannot be mended: the callback was called too early, the response has a block that is freed, or the result is
wrong. -/
inductive Doomed (w : World) : Prop where
  | astray (h : w.astray = true)
  | freed (dead : w.heap.Dead w.res.recvData) (point : w.point.taken ∨ w.point = .done)
  | denied (h : Denied w)

theorem Doomed.not_sound (h : Doomed w) (hdone : w.point = .done) : ¬ Sound initial w := by
  intro hsound
  cases h with
  | astray h =>
    rw [hsound.known] at h
    cases h
  | freed dead _ =>
    obtain ⟨contents, honly⟩ := hsound.current hdone
    have hread := honly.read
    rw [dead.read] at hread
    cases hread
  | denied h =>
    cases h with
    | later _ _ point => simp [hdone] at point
    | returned heard ret _ =>
      have hret := (hsound.answered hdone).mpr heard
      rw [ret] at hret
      cases hret

theorem main_heap (w : World) (ok : Bool) : (w.main ok).heap = w.heap ∧ (w.main ok).astray = w.astray := by
  unfold World.main
  cases w.point with
  | resolve =>
    dsimp only
    split <;> exact ⟨rfl, rfl⟩
  | lookup =>
    dsimp only [World.sleep]
    split
    · split <;> exact ⟨rfl, rfl⟩
    · exact ⟨rfl, rfl⟩
  | poll =>
    dsimp only [World.pollState]
    split <;> exact ⟨rfl, rfl⟩
  | connection | pollReturn | wait | exit =>
    dsimp only
    split <;> exact ⟨rfl, rfl⟩
  | _ => exact ⟨rfl, rfl⟩

theorem main_taken (hpoint : w.point.taken) (ok : Bool) :
    (w.main ok).res.recvData = w.res.recvData ∧ ((w.main ok).point.taken ∨ (w.main ok).point = .done) := by
  unfold World.main
  rcases hpoint with h | h | h
  · rw [h]
    exact ⟨rfl, .inl (.inr (.inl rfl))⟩
  · rw [h]
    exact ⟨rfl, .inl (.inr (.inr rfl))⟩
  · rw [h]
    exact ⟨rfl, .inr rfl⟩

theorem Denied.main (h : Denied w) (ok : Bool) (hdone : w.point ≠ .done) : Denied (w.main ok) := by
  unfold World.main
  cases h with
  | later heard state point =>
    rcases point with hpoint | hpoint | hpoint | hpoint
    · rw [hpoint]
      dsimp only
      split
      · exact .later heard state (.inr (.inr (.inr rfl)))
      · exact .later heard state (.inr (.inl rfl))
    · rw [hpoint]
      exact .later heard state (.inr (.inr (.inl rfl)))
    · rw [hpoint]
      exact .later heard state (.inr (.inr (.inr rfl)))
    · rw [hpoint]
      exact .returned heard (decide_eq_false state) (.inl rfl)
  | returned heard ret point =>
    rw [point.resolve_right hdone]
    exact .returned heard ret (.inr rfl)

/-- Nothing mends it. -/
theorem Doomed.step (h : Doomed w) {a : Action} (hstep : Step w a w') : Doomed w' := by
  cases hstep with
  | main ok hdone =>
    obtain ⟨hheap, hastray⟩ := main_heap w ok
    cases h with
    | astray h => exact .astray (hastray.trans h)
    | freed dead point =>
      obtain ⟨hres, hpoint⟩ := main_taken (point.resolve_right hdone) ok
      refine .freed ?_ hpoint
      rw [hheap, hres]
      exact dead
    | denied h => exact .denied (h.main ok hdone)
  | datagram p _ =>
    unfold World.datagram
    split
    · exact .astray rfl
    · cases h with
      | astray h => exact .astray h
      | freed dead point => exact .freed (dead.realloc _) point
      | denied h =>
        cases h with
        | later heard _ point => exact .denied (.later heard nofun point)
        | returned heard ret point => exact .denied (.returned heard ret point)

theorem Inv.taken_block (h : Inv initial w) (htaken : w.point.taken) : w.res.recvData = w.cs.recvData := by
  have hplace := h.place
  unfold World.Place at hplace
  rcases htaken with hpoint | hpoint | hpoint
  · rw [hpoint] at hplace
    exact hplace.1
  · rw [hpoint] at hplace
    exact congrArg Response.recvData hplace.1
  · rw [hpoint] at hplace
    exact congrArg Response.recvData hplace.1

theorem World.Waiting.state_ne (h : w.Waiting) : w.cs.state ≠ .finished := by
  rcases h with hstate | ⟨hstate, -⟩
  · rw [hstate]
    nofun
  · rw [hstate]
    nofun

/-- Where the last poll has seen a datagram, and the response is not taken. -/
theorem Inv.finished_point (h : Inv initial w) (hstate : w.cs.state = .finished) (hregistered : w.point.registered)
    (hfields : w.point ≠ .fields) (htaken : ¬ w.point.taken) : w.point = .exit ∨ w.point = .takeData := by
  obtain ⟨hresolve, hlookup, hconnection, hdone⟩ := hregistered
  have hplace := h.place
  unfold World.Place at hplace
  cases hat : w.point with
  | resolve => exact absurd hat hresolve
  | lookup => exact absurd hat hlookup
  | connection => exact absurd hat hconnection
  | fields => exact absurd hat hfields
  | done => exact absurd hat hdone
  | takeLen => exact absurd (.inl hat) htaken
  | result => exact absurd (.inr (.inl hat)) htaken
  | close => exact absurd (.inr (.inr hat)) htaken
  | exit => exact .inl rfl
  | takeData => exact .inr rfl
  | sendto =>
    rw [hat] at hplace
    exact absurd hstate hplace.2
  | sent ok =>
    rw [hat] at hplace
    exact absurd hstate hplace.2
  | finish =>
    rw [hat] at hplace
    exact absurd hstate hplace.2.2
  | poll =>
    rw [hat] at hplace
    rcases hplace.2 with hwaiting | herror
    · exact absurd hstate hwaiting.state_ne
    · rw [hstate] at herror
      cases herror
  | pollReturn =>
    rw [hat] at hplace
    exact absurd hstate hplace.2.state_ne
  | wait =>
    rw [hat] at hplace
    exact absurd hstate hplace.2.state_ne

theorem main_poll (hpoint : w.point = .poll) (ok : Bool) : w.main ok = w.pollState := by
  unfold World.main
  rw [hpoint]

theorem pollState_error (hstate : w.cs.state = .error) :
    w.pollState = { w with heard := !w.received.isEmpty }.goto .exit := by
  unfold World.pollState
  dsimp only
  rw [hstate]

/-- A step that is not allowed cannot be mended. -/
theorem not_allowed_doomed (h : Inv initial w) {a : Action} (hok : ¬ Allowed w a) (hstep : Step w a w') : Doomed w' := by
  have hplace := h.place
  unfold World.Place at hplace
  cases hstep with
  | main ok _ =>
    by_cases hexit : w.point = .exit → w.maxWait ≤ 0 → w.received = []
    · have hpoll : ¬ (w.point = .poll → w.cs.state = .error → w.received = []) := fun hpoll => hok ⟨hexit, hpoll⟩
      rw [Classical.not_imp, Classical.not_imp] at hpoll
      obtain ⟨hpoint, hstate, hreceived⟩ := hpoll
      rw [main_poll hpoint, pollState_error hstate]
      refine .denied (.later ((isEmpty_heard w.received).mpr hreceived) ?_ (.inl rfl))
      change w.cs.state ≠ .finished
      rw [hstate]
      nofun
    · rw [Classical.not_imp, Classical.not_imp] at hexit
      obtain ⟨hpoint, htime, hreceived⟩ := hexit
      rw [hpoint] at hplace
      have hmain : w.main ok = w.goto .result := by
        unfold World.main
        rw [hpoint]
        exact if_pos htime
      rw [hmain]
      exact .freed (hplace.1.2 hreceived) (.inl (.inr (.inl rfl)))
  | datagram p hregistered =>
    unfold World.datagram
    split
    · exact .astray rfl
    rename_i hfields
    by_cases htaken : w.point.taken
    · exact .freed (recvCb_dead h.core (h.taken_block htaken) p) (.inl htaken)
    have hstate : w.cs.state = .finished := by
      by_contra hstate
      exact hok ⟨hfields, hstate, htaken⟩
    have hpoint := h.finished_point hstate hregistered hfields htaken
    exact .denied (.later (h.core.finished hstate) nofun (hpoint.imp_right .inl))

/-- All goes well in a run, or it cannot be mended. -/
theorem run_inv_or_doomed {dns : Dns} {as : List Action}
    (h : Run Step (fun _ _ => True) (World.call dns initial) as w) :
    (Run Step Allowed (World.call dns initial) as w ∧ Inv initial w) ∨ Doomed w := by
  refine h.invariant_actions (I := fun as w =>
    (Run Step Allowed (World.call dns initial) as w ∧ Inv initial w) ∨ Doomed w) ?_
      (.inl ⟨.refl _, call_inv dns initial⟩)
  intro as s a t hs _ hstep
  rcases hs with ⟨hrun, hinv⟩ | hdoomed
  · by_cases hok : Allowed s a
    · exact .inl ⟨hrun.snoc hok hstep, step_keeps hinv hok hstep⟩
    · exact .inr (not_allowed_doomed hinv hok hstep)
  · exact .inr (hdoomed.step hstep)

end Invariant

/-! ## Termination -/

section Termination
variable {w w' : World}

def Dns.sleeps : Dns → Nat
  | pending sleeps _ => sleeps + 1
  | _ => 0

/-- How many steps of the main program are left at most. -/
def World.left (w : World) : Nat :=
  match w.point with
  | .resolve => 15 + 4 * w.maxWait.toNat + w.dns.sleeps
  | .lookup => 14 + 4 * w.maxWait.toNat + w.dns.sleeps
  | .connection => 13 + 4 * w.maxWait.toNat
  | .fields => 12 + 4 * w.maxWait.toNat
  | .sendto => 11 + 4 * w.maxWait.toNat
  | .sent _ => 10 + 4 * w.maxWait.toNat
  | .poll => 9 + 4 * w.maxWait.toNat
  | .pollReturn => 8 + 4 * w.maxWait.toNat
  | .wait => 7 + 4 * w.maxWait.toNat
  | .finish => 6
  | .exit => 5
  | .takeData => 4
  | .takeLen => 3
  | .result => 2
  | .close => 1
  | .done => 0

/-- There is an address, or it will come. -/
structure Resolves (w : World) : Prop where
  resolve : w.point = .resolve → w.dns.address ≠ 0
  lookup : w.point = .lookup → w.ip = 0 → w.dns.address ≠ 0 ∧ w.dns.sleeps ≠ 0

theorem World.left_resolve (h : w.point = .resolve) : w.left = 15 + 4 * w.maxWait.toNat + w.dns.sleeps := by
  unfold left
  rw [h]

theorem World.left_lookup (h : w.point = .lookup) : w.left = 14 + 4 * w.maxWait.toNat + w.dns.sleeps := by
  unfold left
  rw [h]

theorem main_resolve (hpoint : w.point = .resolve) (ok : Bool) :
    ∃ ip, w.main ok = { w with ip }.goto .lookup ∧ (w.dns.sleeps = 0 → w.dns.address ≠ 0 → ip ≠ 0) := by
  unfold World.main
  rw [hpoint]
  dsimp only
  split
  · rename_i ip hdns
    refine ⟨ip, rfl, fun _ haddress => ?_⟩
    rw [hdns] at haddress
    exact haddress
  · rename_i hfound
    refine ⟨w.ip, rfl, fun hsleeps haddress => ?_⟩
    cases hdns : w.dns with
    | found ip => exact absurd hdns (hfound ip)
    | pending sleeps answer =>
      rw [hdns] at hsleeps
      exact absurd hsleeps (Nat.succ_ne_zero sleeps)
    | error =>
      rw [hdns] at haddress
      exact absurd rfl haddress

theorem sleep_left (hsleeps : w.dns.sleeps ≠ 0) :
    ∃ dns ip, w.sleep = { w with dns, ip } ∧ dns.sleeps < w.dns.sleeps ∧
      (w.dns.address ≠ 0 → ip = 0 → w.ip = 0 → dns.address ≠ 0 ∧ dns.sleeps ≠ 0) := by
  unfold World.sleep
  split
  · rename_i answer hdns
    rw [hdns]
    exact ⟨.error, _, rfl, Nat.zero_lt_one, fun haddress hip => absurd hip haddress⟩
  · rename_i sleeps answer hdns
    rw [hdns]
    exact ⟨.pending sleeps answer, w.ip, rfl, Nat.lt_succ_self _,
      fun haddress _ _ => ⟨haddress, Nat.succ_ne_zero sleeps⟩⟩
  · rename_i hzero hsucc
    cases hdns : w.dns with
    | found ip =>
      rw [hdns] at hsleeps
      exact absurd rfl hsleeps
    | error =>
      rw [hdns] at hsleeps
      exact absurd rfl hsleeps
    | pending sleeps answer =>
      cases sleeps with
      | zero => exact absurd hdns (hzero answer)
      | succ sleeps => exact absurd hdns (hsucc sleeps answer)

theorem main_left (h : Resolves w) (ok : Bool) (hdone : w.point ≠ .done) :
    Resolves (w.main ok) ∧ (w.main ok).left < w.left := by
  cases hpoint : w.point with
  | done => exact absurd hpoint hdone
  | resolve =>
    obtain ⟨ip, hmain, hip⟩ := main_resolve hpoint ok
    rw [hmain, World.left_resolve hpoint, World.left_lookup rfl]
    have haddress := h.resolve hpoint
    refine ⟨⟨nofun, fun _ hzero => ⟨haddress, fun hsleeps => hip hsleeps haddress hzero⟩⟩, ?_⟩
    dsimp only [World.goto]
    omega
  | lookup =>
    rw [World.left_lookup hpoint]
    unfold World.main
    rw [hpoint]
    dsimp only
    split
    · rename_i hzero
      obtain ⟨haddress, hsleeps⟩ := h.lookup hpoint hzero
      obtain ⟨dns, ip, hsleep, hless, hnext⟩ := sleep_left hsleeps
      have hleft : { w with dns, ip }.left = 14 + 4 * w.maxWait.toNat + dns.sleeps := World.left_lookup hpoint
      rw [hsleep, hleft]
      refine ⟨⟨fun hresolve => ?_, fun _ hip => hnext haddress hip hzero⟩, ?_⟩
      · cases hpoint.symm.trans hresolve
      · omega
    · refine ⟨⟨nofun, nofun⟩, ?_⟩
      dsimp only [World.goto, World.left]
      omega
  | connection | poll | pollReturn | wait | exit =>
    unfold World.main World.left
    rw [hpoint]
    dsimp only [World.pollState]
    split
    all_goals
      refine ⟨⟨nofun, nofun⟩, ?_⟩
      dsimp only [World.goto]
      omega
  | _ =>
    unfold World.main World.left
    rw [hpoint]
    refine ⟨⟨nofun, nofun⟩, ?_⟩
    dsimp only [World.goto, World.setState]
    omega

theorem datagram_left (hregistered : w.point.registered) (p : Pbuf) :
    Resolves (w.datagram p) ∧ (w.datagram p).left = w.left := by
  have hsame : (w.datagram p).point = w.point ∧ (w.datagram p).maxWait = w.maxWait ∧
      (w.datagram p).dns = w.dns := by
    unfold World.datagram
    split
    · exact ⟨rfl, rfl, rfl⟩
    · exact ⟨rfl, rfl, rfl⟩
  obtain ⟨hpoint, hwait, hdns⟩ := hsame
  refine ⟨⟨fun h => ?_, fun h => ?_⟩, ?_⟩
  · exact absurd (hpoint.symm.trans h) hregistered.1
  · exact absurd (hpoint.symm.trans h) hregistered.2.1
  · unfold World.left
    rw [hpoint, hwait, hdns]

/-- The address never comes. -/
def Stuck (w : World) : Prop :=
  (w.point = .resolve ∨ w.point = .lookup) ∧ w.ip = 0 ∧ w.dns.address = 0

theorem Stuck.main (h : Stuck w) (ok : Bool) : Stuck (w.main ok) := by
  obtain ⟨hpoint, hip, haddress⟩ := h
  unfold World.main
  rcases hpoint with hpoint | hpoint
  · rw [hpoint]
    dsimp only
    split
    · rename_i ip hdns
      rw [hdns] at haddress
      refine ⟨.inr rfl, haddress, ?_⟩
      change w.dns.address = 0
      rw [hdns]
      exact haddress
    · exact ⟨.inr rfl, hip, haddress⟩
  · rw [hpoint]
    dsimp only
    rw [if_pos hip]
    unfold World.sleep
    split
    · rename_i answer hdns
      rw [hdns] at haddress
      exact ⟨.inr hpoint, haddress, rfl⟩
    · rename_i sleeps answer hdns
      rw [hdns] at haddress
      exact ⟨.inr hpoint, hip, haddress⟩
    · exact ⟨.inr hpoint, hip, haddress⟩

theorem Stuck.run (h : Stuck w) (n : Nat) :
    ∃ w', Run Step (fun _ _ => True) w (List.replicate n (.main true)) w' ∧ Stuck w' := by
  induction n generalizing w with
  | zero => exact ⟨w, .refl w, h⟩
  | succ n ih =>
    obtain ⟨w', hrun, hstuck⟩ := ih (h.main true)
    have hdone : w.point ≠ .done := by
      rcases h.1 with hpoint | hpoint
      · rw [hpoint]
        nofun
      · rw [hpoint]
        nofun
    exact ⟨w', hrun.cons trivial (.main true hdone), hstuck⟩

theorem terminates_iff (dns : Dns) (initial : Bytes) : Terminates dns initial ↔ dns.address ≠ 0 := by
  constructor
  · rintro ⟨n, hall⟩ haddress
    obtain ⟨w, hrun, -⟩ := Stuck.run (w := World.call dns initial) ⟨.inl rfl, rfl, haddress⟩ (n + 1)
    have hlen := hall _ w hrun
    rw [List.filter_eq_self.mpr fun a ha => by rw [List.eq_of_mem_replicate ha]; rfl, List.length_replicate] at hlen
    exact Nat.not_succ_le_self n hlen
  · intro haddress
    refine ⟨(World.call dns initial).left, fun as w hrun => ?_⟩
    have hinv := hrun.invariant_actions
      (I := fun as w => Resolves w ∧ (as.filter Action.isMain).length + w.left ≤ (World.call dns initial).left) ?_
        ⟨⟨fun _ => haddress, nofun⟩, Nat.le_of_eq (Nat.zero_add _)⟩
    · omega
    · rintro as s a t ⟨hresolves, hlen⟩ _ hstep
      rw [List.filter_append, List.length_append]
      cases hstep with
      | main ok hdone =>
        obtain ⟨hnext, hless⟩ := main_left hresolves ok hdone
        have hone : ([Action.main ok].filter Action.isMain).length = 1 := rfl
        refine ⟨hnext, ?_⟩
        omega
      | datagram p hregistered =>
        obtain ⟨hnext, hsame⟩ := datagram_left hregistered p
        have hnone : ([Action.datagram p].filter Action.isMain).length = 0 := rfl
        refine ⟨hnext, ?_⟩
        omega

end Termination

/-- A call ends when the name gets an address. In a run of steps that are allowed the promise holds all along, and in no
other run does it hold to the end. -/
theorem send_keeps_iff (dns : Dns) (initial : Bytes) :
    (Terminates dns initial ↔ dns.address ≠ 0) ∧
      ∀ as w, Run Step (fun _ _ => True) (World.call dns initial) as w →
        (Run Step Allowed (World.call dns initial) as w → Sound initial w) ∧
          (w.point = .done → Sound initial w → Run Step Allowed (World.call dns initial) as w) := by
  refine ⟨terminates_iff dns initial, fun as w h => ⟨fun hallowed => ?_, fun hdone hsound => ?_⟩⟩
  · exact (hallowed.invariant (fun s a t hs hok hstep => step_keeps hs hok hstep) (call_inv dns initial)).sound
  · rcases run_inv_or_doomed h with ⟨hrun, -⟩ | hdoomed
    · exact hrun
    · exact absurd hsound (hdoomed.not_sound hdone)

/-- An answer, and another one when a poll has seen the first. -/
def answeredTwice : List Action :=
  [.main true, .main true, .main true, .main true, .main true, .main true, .datagram (.last [1]), .main true,
    .main true, .datagram (.last [2]), .main true, .main true, .main true, .main true, .main true]

/-- An answer, and another one when the response is taken. -/
def answeredLate : List Action :=
  [.main true, .main true, .main true, .main true, .main true, .main true, .datagram (.last [1]), .main true,
    .main true, .main true, .main true, .main true, .main true, .datagram (.last [2]), .main true]

/-- A name that is not resolved is waited for without end, a request that is answered twice returns false, or it
returns true with a buffer that is freed. -/
theorem send_astray :
    ¬ Terminates .error [] ∧
    (∃ w, Run Step (fun _ _ => True) (World.call (.found 0x08080808) []) answeredTwice w ∧ w.point = .done ∧
      w.received = [[1], [2]] ∧ w.ret = false ∧ ¬ Sound [] w) ∧
    (∃ w, Run Step (fun _ _ => True) (World.call (.found 0x08080808) []) answeredLate w ∧ w.point = .done ∧
      w.ret = true ∧ w.heap.read w.res.recvData = none ∧ ¬ Sound [] w) := by
  refine ⟨fun h => (terminates_iff .error []).mp h rfl,
    ⟨_, Run.of_foldlM (fun _ _ _ => step_of_next) rfl, rfl, rfl, rfl, ?_⟩,
    ⟨_, Run.of_foldlM (fun _ _ _ => step_of_next) rfl, rfl, rfl, rfl, ?_⟩⟩
  · intro h
    have hret := (h.answered rfl).mpr rfl
    cases hret
  · intro h
    obtain ⟨contents, honly⟩ := h.current rfl
    have hread := honly.read
    cases hread

end PicoRuby.Net.Udp
