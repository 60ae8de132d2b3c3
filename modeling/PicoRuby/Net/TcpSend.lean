import PicoRuby.Net.Tcp

/-!
# TCPClient_send

What `TCPClient_send` leaves, in every run of the callbacks with it.
-/

namespace PicoRuby.Net

open Shared

set_option autoImplicit false

/-! ## Packets -/

theorem Pbuf.copyFrom_eq (tmpbuf : Bytes) (p : Pbuf) : p.copyFrom tmpbuf = tmpbuf ++ p.bytes := by
  induction p generalizing tmpbuf with
  | last payload =>
    change tmpbuf ++ payload.take payload.length = tmpbuf ++ payload
    rw [List.take_length]
  | chained payload next ih =>
    change copyFrom (tmpbuf ++ (payload ++ next.bytes).take payload.length) next =
      tmpbuf ++ (payload ++ next.bytes)
    rw [List.take_left, ih, List.append_assoc]

theorem Pbuf.copyFrom_take (p : Pbuf) : (p.copyFrom []).take p.totLen = p.bytes := by
  rw [copyFrom_eq, List.nil_append, totLen, List.take_length]

/-! ## What is promised -/

/-- What holds of a world that is reached from a call. -/
structure Sound (initial : Bytes) (w : World) : Prop where
  untouched : w.touched = false
  unlocked : w.point = .done → w.depth = 0
  current : w.point = .done → ∃ contents, w.heap.Only w.res.recvData contents
  complete : w.point = .done → w.ret = true → w.reached = true ∧
    w.heap.read w.res.recvData = some (initial ++ w.received.flatten) ∧
      w.res.recvDataLen = (initial ++ w.received.flatten).length

/-- Where the response has been taken from the connection, as far as it is. -/
def Point.taken (p : Point) : Prop :=
  p = .takeLen ∨ p = .result ∨ p = .close ∨ p = .closing

/-- No callback has an error, `altcp_write` does not fail, no pbuf comes once the response is taken, and
none has come when the time is over. -/
def Allowed (w : World) : Action → Prop
  | .main ok => (w.point = .write → ok = true) ∧ (w.point = .exit → w.maxWait ≤ 0 → w.received = [])
  | .callback (.connected ok) => ok = true
  | .callback (.recv pbuf ok) => ok = true ∧ (pbuf.isSome = true → ¬ w.point.taken)
  | .callback _ => True

/-! ## The invariant -/

/-- What holds wherever the main program is. -/
structure Core (initial : Bytes) (w : World) : Prop where
  untouched : w.touched = false
  unlocked : w.depth = 0
  only : w.heap.Only w.cs.recvData (initial ++ w.received.flatten)
  length : w.cs.recvDataLen = (initial ++ w.received.flatten).length
  reached : w.cs.state = .finished → w.reached = true
  ret : w.ret = true → w.reached = true

/-- The response has what the connection has. -/
def World.Taken (w : World) : Prop := w.res = ⟨w.cs.recvData, w.cs.recvDataLen⟩

/-- The response is as it was, and so it is what the connection has or it is out of date. -/
def World.Untaken (w : World) : Prop :=
  (w.received = [] → w.Taken) ∧ (w.received ≠ [] → w.heap.Dead w.res.recvData)

/-- What holds of the response at a point of the main program. -/
def World.Place (w : World) : Prop :=
  match w.point with
  | .start => w.received = [] ∧ w.Taken
  | .takeLen => w.res.recvData = w.cs.recvData
  | .result => w.Taken
  | .close => w.Taken
  | .closing => w.Taken
  | .done => w.Taken
  | _ => w.Untaken

/-- The invariant of the runs in which all goes well. -/
structure Inv (initial : Bytes) (w : World) : Prop where
  core : Core initial w
  opened : w.freed = true → w.point = .done
  place : w.Place

theorem Inv.sound {initial : Bytes} {w : World} (h : Inv initial w) : Sound initial w := by
  have htaken (hdone : w.point = .done) : w.Taken := by
    have hplace := h.place
    unfold World.Place at hplace
    rw [hdone] at hplace
    exact hplace
  refine ⟨h.core.untouched, fun _ => h.core.unlocked, ?_, ?_⟩
  · intro hdone
    rw [htaken hdone]
    exact ⟨_, h.core.only⟩
  · intro hdone hret
    rw [htaken hdone]
    exact ⟨h.core.ret hret, h.core.only.read, h.core.length⟩

section Core
variable {initial : Bytes} {w : World}

theorem Core.use (h : Core initial w) (hopen : w.freed = false) : Core initial w.use := by
  refine ⟨?_, h.unlocked, h.only, h.length, h.reached, h.ret⟩
  change (w.touched || w.freed) = false
  rw [h.untouched, hopen]
  rfl

theorem Core.goto (h : Core initial w) (point : Point) : Core initial (w.goto point) :=
  ⟨h.untouched, h.unlocked, h.only, h.length, h.reached, h.ret⟩

theorem Core.section_lwip (h : Core initial w) : Core initial w.lwipBegin.lwipEnd :=
  ⟨h.untouched, h.unlocked, h.only, h.length, h.reached, h.ret⟩

theorem Core.setState (h : Core initial w) (hopen : w.freed = false) (state : TcpState) :
    Core initial (w.setState state) := by
  have huse := h.use hopen
  refine ⟨huse.untouched, h.unlocked, h.only, h.length, ?_, ?_⟩
  · intro hstate
    replace hstate : state = .finished := hstate
    change (w.reached || decide (state = .finished)) = true
    rw [decide_eq_true hstate, Bool.or_true]
  · intro hret
    change (w.reached || decide (state = .finished)) = true
    rw [h.ret hret, Bool.true_or]

/-- A packet is put behind what was received, in a new block. -/
theorem recvPbuf_contents (h : Core initial w) (pbuf : Pbuf) :
    w.recvPbuf pbuf = { w.use with
      heap := (w.heap.realloc w.cs.recvData (initial ++ (w.received ++ [pbuf.bytes]).flatten)).2
      cs := ⟨.packetRecved,
        (w.heap.realloc w.cs.recvData (initial ++ (w.received ++ [pbuf.bytes]).flatten)).1,
        (initial ++ (w.received ++ [pbuf.bytes]).flatten).length⟩
      received := w.received ++ [pbuf.bytes] } := by
  have hflatten : initial ++ (w.received ++ [pbuf.bytes]).flatten =
      initial ++ w.received.flatten ++ pbuf.bytes := by
    rw [List.flatten_append, List.flatten_singleton, List.append_assoc]
  have hlen : w.cs.recvDataLen + pbuf.totLen =
      (initial ++ (w.received ++ [pbuf.bytes]).flatten).length := by
    rw [hflatten, List.length_append, h.length]
    rfl
  have hcontents : ((w.heap.read w.cs.recvData).getD []).take w.cs.recvDataLen ++
      (pbuf.copyFrom []).take pbuf.totLen = initial ++ (w.received ++ [pbuf.bytes]).flatten := by
    rw [h.only.read, Option.getD_some, h.length, List.take_length, Pbuf.copyFrom_take, hflatten]
  unfold World.recvPbuf
  dsimp only
  rw [hcontents, hlen]

theorem Core.recvPbuf (h : Core initial w) (hopen : w.freed = false) (pbuf : Pbuf) :
    Core initial (w.recvPbuf pbuf) := by
  rw [recvPbuf_contents h pbuf]
  refine ⟨(h.use hopen).untouched, h.unlocked, h.only.realloc _, rfl, ?_, h.ret⟩
  intro hstate
  cases hstate

end Core

/-! ## Steps -/

section Steps
variable {initial : Bytes} {w w' : World}

theorem main_keeps (h : Inv initial w) (ok : Bool) (hdone : w.point ≠ .done)
    (hok : Allowed w (.main ok)) : Inv initial (w.main ok) := by
  have hopen : w.freed = false := by
    cases hfreed : w.freed with
    | false => rfl
    | true => exact absurd (h.opened hfreed) hdone
  have hcore := h.core
  have hused := hcore.use hopen
  have hplace := h.place
  have hnot {p : Point} (hfreed : w.freed = true) : p = .done := by
    rw [hopen] at hfreed
    cases hfreed
  obtain ⟨hwrite, hexit⟩ := hok
  unfold World.Place at hplace
  unfold World.main
  cases hpoint : w.point with
  | start =>
    rw [hpoint] at hplace
    dsimp only
    split
    · refine ⟨hcore.goto _, hnot, ?_⟩
      exact ⟨fun _ => hplace.2, fun hne => absurd hplace.1 hne⟩
    · exact ⟨hcore.goto _, hnot, hplace.2⟩
  | connect =>
    rw [hpoint] at hplace
    dsimp only
    split
    · exact ⟨hused.section_lwip.goto _, hnot, hplace⟩
    · have hset := hused.setState hopen .error
      exact ⟨⟨hset.untouched, hset.unlocked, hset.only, hset.length, hset.reached, hset.ret⟩, hnot,
        hplace⟩
  | started =>
    rw [hpoint] at hplace
    exact ⟨(hcore.setState hopen _).goto _, hnot, hplace⟩
  | poll =>
    rw [hpoint] at hplace
    dsimp only
    unfold World.pollState
    split
    all_goals exact ⟨hused.goto _, hnot, hplace⟩
  | connected =>
    rw [hpoint] at hplace
    exact ⟨(hcore.setState hopen _).goto _, hnot, hplace⟩
  | write =>
    rw [hpoint] at hplace
    rw [hwrite hpoint]
    exact ⟨hused.section_lwip.goto _, hnot, hplace⟩
  | packet =>
    rw [hpoint] at hplace
    exact ⟨(hcore.setState hopen _).goto _, hnot, hplace⟩
  | pollReturn =>
    rw [hpoint] at hplace
    dsimp only
    split
    · exact ⟨hused.goto _, hnot, hplace⟩
    · exact ⟨hused.goto _, hnot, hplace⟩
  | wait =>
    rw [hpoint] at hplace
    have hleft : Core initial { w with maxWait := w.maxWait - 1 } :=
      ⟨hcore.untouched, hcore.unlocked, hcore.only, hcore.length, hcore.reached, hcore.ret⟩
    dsimp only
    split
    · exact ⟨hleft.goto _, hnot, hplace⟩
    · exact ⟨hleft.goto _, hnot, hplace⟩
  | exit =>
    rw [hpoint] at hplace
    dsimp only
    split
    · rename_i htime
      exact ⟨hcore.goto _, hnot, hplace.1 (hexit hpoint htime)⟩
    · exact ⟨hcore.goto _, hnot, hplace⟩
  | takeData =>
    exact ⟨⟨hused.untouched, hused.unlocked, hused.only, hused.length, hused.reached, hused.ret⟩, hnot,
      rfl⟩
  | takeLen =>
    rw [hpoint] at hplace
    replace hplace : w.res.recvData = w.cs.recvData := hplace
    refine ⟨⟨hused.untouched, hused.unlocked, hused.only, hused.length, hused.reached, hused.ret⟩, hnot,
      ?_⟩
    change (⟨w.res.recvData, w.cs.recvDataLen⟩ : Response) = ⟨w.cs.recvData, w.cs.recvDataLen⟩
    rw [hplace]
  | result =>
    rw [hpoint] at hplace
    refine ⟨⟨hused.untouched, hused.unlocked, hused.only, hused.length, hused.reached, ?_⟩, hnot, hplace⟩
    intro hret
    exact hcore.reached (of_decide_eq_true hret)
  | close =>
    rw [hpoint] at hplace
    exact ⟨hused.goto _, hnot, hplace⟩
  | closing =>
    rw [hpoint] at hplace
    refine ⟨⟨hused.untouched, hused.unlocked, hused.only, hused.length, hused.reached, hused.ret⟩,
      fun _ => rfl, hplace⟩
  | done => exact absurd hpoint hdone

theorem World.Place.congr (h : w.Place) (hpoint : w'.point = w.point) (hres : w'.res = w.res)
    (hdata : w'.cs.recvData = w.cs.recvData) (hlen : w'.cs.recvDataLen = w.cs.recvDataLen)
    (hheap : w'.heap = w.heap) (hreceived : w'.received = w.received) : w'.Place := by
  unfold World.Place World.Untaken World.Taken at *
  rw [hpoint, hres, hdata, hlen, hheap, hreceived]
  exact h

theorem place_iff_untaken (hstart : w.point ≠ .start) (hdone : w.point ≠ .done)
    (htaken : ¬ w.point.taken) : w.Place ↔ w.Untaken := by
  unfold World.Place
  unfold Point.taken at htaken
  cases hpoint : w.point with
  | start => exact absurd hpoint hstart
  | done => exact absurd hpoint hdone
  | takeLen => exact absurd (Or.inl hpoint) htaken
  | result => exact absurd (Or.inr (Or.inl hpoint)) htaken
  | close => exact absurd (Or.inr (Or.inr (Or.inl hpoint))) htaken
  | closing => exact absurd (Or.inr (Or.inr (Or.inr hpoint))) htaken
  | _ => exact Iff.rfl

/-- Where the response is not taken yet, it is out of date once a pbuf has come. -/
theorem recvPbuf_untaken (h : Core initial w) (huntaken : w.Untaken) (pbuf : Pbuf) :
    (w.recvPbuf pbuf).Untaken := by
  rw [recvPbuf_contents h pbuf]
  refine ⟨?_, fun _ => ?_⟩
  · intro hempty
    exact absurd hempty (List.append_ne_nil_of_right_ne_nil _ (List.cons_ne_nil _ _))
  · change (w.heap.realloc _ _).2.Dead w.res.recvData
    by_cases hempty : w.received = []
    · rw [huntaken.1 hempty]
      exact h.only.dead_realloc _
    · exact (huntaken.2 hempty).realloc _

theorem callback_keeps (h : Inv initial w) (c : World.Callback) (hstart : w.point ≠ .start)
    (hclosed : w.freed = false) (hdone : w.point ≠ .done) (hok : Allowed w (.callback c)) :
    Inv initial (w.callback c) := by
  have hnot {p : Point} (hfreed : w.freed = true) : p = .done := by
    rw [hclosed] at hfreed
    cases hfreed
  have hset (state : TcpState) : Inv initial (w.setState state) :=
    ⟨h.core.setState hclosed state, hnot, h.place.congr rfl rfl rfl rfl rfl rfl⟩
  cases c with
  | connected ok =>
    cases ok with
    | true => exact hset .connected
    | false => cases hok
  | recv pbuf ok =>
    cases ok with
    | false => cases hok.1
    | true =>
      cases pbuf with
      | none => exact hset .finished
      | some pbuf =>
        have htaken := hok.2 rfl
        have huntaken := (place_iff_untaken hstart hdone htaken).mp h.place
        exact ⟨h.core.recvPbuf hclosed pbuf, hnot,
          (place_iff_untaken (w := w.recvPbuf pbuf) hstart hdone htaken).mpr
            (recvPbuf_untaken h.core huntaken pbuf)⟩
  | sent => exact h
  | poll => exact hset .timeout
  | err => exact hset .error

theorem step_keeps (h : Inv initial w) {a : Action} (hok : Allowed w a) (hstep : Step w a w') :
    Inv initial w' := by
  cases hstep with
  | main ok hdone => exact main_keeps h ok hdone hok
  | callback c hstart hclosed hlock hdone => exact callback_keeps h c hstart hclosed hdone hok

theorem call_inv (initial : Bytes) : Inv initial (World.call initial) := by
  have hnothing : initial ++ ([] : List Bytes).flatten = initial := List.append_nil initial
  refine ⟨⟨rfl, rfl, ?_, ?_, ?_, ?_⟩, ?_, rfl, rfl⟩
  · change (Heap.single initial).Only 0 (initial ++ ([] : List Bytes).flatten)
    rw [hnothing]
    exact Heap.single_only initial
  · change initial.length = (initial ++ ([] : List Bytes).flatten).length
    rw [hnothing]
  · intro hstate
    cases hstate
  · intro hret
    cases hret
  · intro hfreed
    cases hfreed

/-! ## What goes wrong -/

/-- What cannot be mended: the connection was used when it was freed or still will be, the lock is kept,
or the response has a block that is freed. -/
def Doomed (w : World) : Prop :=
  w.touched = true ∨ (w.freed = true ∧ w.point ≠ .start ∧ w.point ≠ .done) ∨ 0 < w.depth ∨
    (w.heap.Dead w.res.recvData ∧ (w.point.taken ∨ w.point = .done))

theorem Doomed.not_sound (h : Doomed w) (hdone : w.point = .done) : ¬ Sound initial w := by
  intro hsound
  rcases h with htouched | ⟨-, -, hnot⟩ | hdepth | ⟨hdead, -⟩
  · rw [hsound.untouched] at htouched
    cases htouched
  · exact hnot hdone
  · rw [hsound.unlocked hdone] at hdepth
    exact Nat.lt_irrefl 0 hdepth
  · obtain ⟨contents, honly⟩ := hsound.current hdone
    have hread := honly.read
    rw [hdead.read] at hread
    cases hread

/-- What no step of the main program changes or takes back. A connection that is freed too early is used
in it or later. -/
structure Onward (w w' : World) : Prop where
  heap : w'.heap = w.heap
  depth : w.depth ≤ w'.depth
  touched : w.touched = true → w'.touched = true
  freed : w.freed = true → w'.freed = true
  uses : w.freed = true → w.point ≠ .start → w.point ≠ .done →
    w'.touched = true ∨ (w'.point ≠ .start ∧ w'.point ≠ .done)

theorem World.use_touched (h : w.touched = true) : w.use.touched = true := by
  change (w.touched || w.freed) = true
  rw [h, Bool.true_or]

theorem World.use_freed (h : w.freed = true) : w.use.touched = true := by
  change (w.touched || w.freed) = true
  rw [h, Bool.or_true]

theorem main_onward (w : World) (ok : Bool) : Onward w (w.main ok) := by
  have hused : Onward w w.use :=
    ⟨rfl, Nat.le_refl _, World.use_touched, fun h => h, fun h _ _ => Or.inl (World.use_freed h)⟩
  have htwice : Onward w w.use.use :=
    ⟨rfl, Nat.le_refl _, fun h => World.use_touched (hused.touched h), fun h => h,
      fun h _ _ => Or.inl (World.use_freed (w := w.use) h)⟩
  unfold World.main
  cases hpoint : w.point with
  | start =>
    dsimp only
    split
    · exact ⟨rfl, Nat.le_refl _, fun h => h, fun h => h, fun _ hstart => absurd hpoint hstart⟩
    · exact ⟨rfl, Nat.le_refl _, fun h => h, fun h => h, fun _ hstart => absurd hpoint hstart⟩
  | connect =>
    dsimp only
    split
    · exact ⟨rfl, hused.depth, hused.touched, hused.freed, fun h _ _ => Or.inl (World.use_freed h)⟩
    · exact ⟨rfl, htwice.depth, htwice.touched, htwice.freed,
        fun h _ _ => Or.inl (World.use_freed (w := w.use) h)⟩
  | poll =>
    dsimp only
    unfold World.pollState
    split
    all_goals
      exact ⟨rfl, hused.depth, hused.touched, hused.freed, fun h _ _ => Or.inl (World.use_freed h)⟩
  | write =>
    dsimp only
    split
    · exact ⟨rfl, hused.depth, hused.touched, hused.freed, fun h _ _ => Or.inl (World.use_freed h)⟩
    · exact ⟨rfl, Nat.le_succ _, htwice.touched, htwice.freed,
        fun h _ _ => Or.inl (World.use_freed (w := w.use) h)⟩
  | pollReturn =>
    dsimp only
    split
    · exact ⟨rfl, hused.depth, hused.touched, hused.freed, fun h _ _ => Or.inl (World.use_freed h)⟩
    · exact ⟨rfl, hused.depth, hused.touched, hused.freed, fun h _ _ => Or.inl (World.use_freed h)⟩
  -- the only points before which the connection is not read
  | wait =>
    dsimp only
    split
    · exact ⟨rfl, Nat.le_refl _, fun h => h, fun h => h,
        fun _ _ _ => Or.inr ⟨Point.noConfusion, Point.noConfusion⟩⟩
    · exact ⟨rfl, Nat.le_refl _, fun h => h, fun h => h,
        fun _ _ _ => Or.inr ⟨Point.noConfusion, Point.noConfusion⟩⟩
  | exit =>
    dsimp only
    split
    · exact ⟨rfl, Nat.le_refl _, fun h => h, fun h => h,
        fun _ _ _ => Or.inr ⟨Point.noConfusion, Point.noConfusion⟩⟩
    · exact ⟨rfl, Nat.le_refl _, fun h => h, fun h => h,
        fun _ _ _ => Or.inr ⟨Point.noConfusion, Point.noConfusion⟩⟩
  | closing =>
    exact ⟨rfl, hused.depth, hused.touched, fun _ => rfl, fun h _ _ => Or.inl (World.use_freed h)⟩
  | done =>
    exact ⟨rfl, Nat.le_refl _, fun h => h, fun h => h, fun _ _ hdone => absurd hpoint hdone⟩
  | _ => exact ⟨rfl, hused.depth, hused.touched, hused.freed, fun h _ _ => Or.inl (World.use_freed h)⟩

/-- The response keeps its block from where it is taken. -/
theorem main_taken (htaken : w.point.taken) (ok : Bool) :
    (w.main ok).res.recvData = w.res.recvData ∧
      ((w.main ok).point.taken ∨ (w.main ok).point = .done) := by
  unfold World.main
  rcases htaken with h | h | h | h
  · rw [h]
    exact ⟨rfl, Or.inl (Or.inr (Or.inl rfl))⟩
  · rw [h]
    exact ⟨rfl, Or.inl (Or.inr (Or.inr (Or.inl rfl)))⟩
  · rw [h]
    exact ⟨rfl, Or.inl (Or.inr (Or.inr (Or.inr rfl)))⟩
  · rw [h]
    exact ⟨rfl, Or.inr rfl⟩

/-- What a callback leaves to the main program. -/
structure Beside (w w' : World) : Prop where
  point : w'.point = w.point
  res : w'.res = w.res
  touched : w.touched = true → w'.touched = true
  dead : ∀ block, w.heap.Dead block → w'.heap.Dead block

theorem callback_beside (w : World) (c : World.Callback) : Beside w (w.callback c) := by
  have hset (state : TcpState) : Beside w (w.setState state) :=
    ⟨rfl, rfl, World.use_touched, fun _ h => h⟩
  cases c with
  | connected ok =>
    cases ok with
    | true => exact hset .connected
    | false => exact ⟨rfl, rfl, World.use_touched, fun _ h => h⟩
  | recv pbuf ok =>
    cases ok with
    | false =>
      exact ⟨rfl, rfl, fun h => World.use_touched ((hset .error).touched h), fun _ h => h⟩
    | true =>
      cases pbuf with
      | none => exact hset .finished
      | some pbuf => exact ⟨rfl, rfl, World.use_touched, fun _ h => h.realloc _⟩
  | sent => exact ⟨rfl, rfl, fun h => h, fun _ h => h⟩
  | poll => exact hset .timeout
  | err => exact hset .error

/-- Nothing mends it. -/
theorem Doomed.step (h : Doomed w) {a : Action} (hstep : Step w a w') : Doomed w' := by
  cases hstep with
  | main ok hdone =>
    have honward := main_onward w ok
    rcases h with htouched | ⟨hfreed, hstart, -⟩ | hdepth | ⟨hdead, htaken⟩
    · exact Or.inl (honward.touched htouched)
    · rcases honward.uses hfreed hstart hdone with htouched | hpoint
      · exact Or.inl htouched
      · exact Or.inr (Or.inl ⟨honward.freed hfreed, hpoint⟩)
    · exact Or.inr (Or.inr (Or.inl (Nat.lt_of_lt_of_le hdepth honward.depth)))
    · obtain ⟨hres, hpoint⟩ := main_taken (htaken.resolve_right hdone) ok
      refine Or.inr (Or.inr (Or.inr ⟨?_, hpoint⟩))
      rw [honward.heap, hres]
      exact hdead
  | callback c hstart hclosed hlock hdone =>
    have hbeside := callback_beside w c
    rcases h with htouched | ⟨hfreed, -, -⟩ | hdepth | ⟨hdead, htaken⟩
    · exact Or.inl (hbeside.touched htouched)
    · rw [hclosed] at hfreed
      cases hfreed
    · rw [hlock] at hdepth
      exact absurd hdepth (Nat.lt_irrefl 0)
    · refine Or.inr (Or.inr (Or.inr ⟨?_, ?_⟩))
      · rw [hbeside.res]
        exact hbeside.dead _ hdead
      · rw [hbeside.point]
        exact htaken

/-- Where the response is taken it has the block of the connection. -/
theorem Inv.taken_block (h : Inv initial w) (htaken : w.point.taken) :
    w.res.recvData = w.cs.recvData := by
  have hplace := h.place
  unfold World.Place at hplace
  rcases htaken with hpoint | hpoint | hpoint | hpoint
  · rw [hpoint] at hplace
    exact hplace
  · rw [hpoint] at hplace
    exact congrArg Response.recvData hplace
  · rw [hpoint] at hplace
    exact congrArg Response.recvData hplace
  · rw [hpoint] at hplace
    exact congrArg Response.recvData hplace

/-- A step that is not allowed cannot be mended. -/
theorem not_allowed_doomed (h : Inv initial w) {a : Action} (hok : ¬ Allowed w a)
    (hstep : Step w a w') : Doomed w' := by
  cases hstep with
  | main ok hdone =>
    by_cases hwrite : w.point = .write → ok = true
    · have hexit : ¬ (w.point = .exit → w.maxWait ≤ 0 → w.received = []) := fun hexit =>
        hok ⟨hwrite, hexit⟩
      rw [Classical.not_imp, Classical.not_imp] at hexit
      obtain ⟨hpoint, htime, hreceived⟩ := hexit
      have hplace := h.place
      unfold World.Place at hplace
      rw [hpoint] at hplace
      have hmain : w.main ok = w.goto .result := by
        unfold World.main
        rw [hpoint]
        exact if_pos htime
      rw [hmain]
      exact Or.inr (Or.inr (Or.inr ⟨hplace.2 hreceived, Or.inl (Or.inr (Or.inl rfl))⟩))
    · rw [Classical.not_imp] at hwrite
      obtain ⟨hpoint, hfails⟩ := hwrite
      rw [Bool.not_eq_true] at hfails
      refine Or.inr (Or.inr (Or.inl ?_))
      unfold World.main
      rw [hpoint, hfails]
      exact Nat.succ_pos _
  | callback c hstart hclosed hlock hdone =>
    have hpoint := (callback_beside w c).point
    have hcloses (hfreed : (w.callback c).freed = true) : Doomed (w.callback c) :=
      Or.inr (Or.inl ⟨hfreed, hpoint ▸ hstart, hpoint ▸ hdone⟩)
    cases c with
    | connected ok =>
      cases ok with
      | true => exact absurd rfl hok
      | false => exact hcloses rfl
    | recv pbuf ok =>
      cases ok with
      | false => exact hcloses rfl
      | true =>
        cases pbuf with
        | none => exact absurd ⟨rfl, fun hnone => absurd hnone Bool.false_ne_true⟩ hok
        | some pbuf =>
          by_cases htaken : w.point.taken
          · refine Or.inr (Or.inr (Or.inr ⟨?_, Or.inl htaken⟩))
            change (w.heap.realloc _ _).2.Dead w.res.recvData
            rw [h.taken_block htaken]
            exact h.core.only.dead_realloc _
          · exact absurd ⟨rfl, fun _ => htaken⟩ hok
    | sent => exact absurd trivial hok
    | poll => exact absurd trivial hok
    | err => exact absurd trivial hok

/-- All goes well in a run, or it cannot be mended. -/
theorem run_inv_or_doomed {as : List Action}
    (h : Run Step (fun _ _ => True) (World.call initial) as w) :
    (Run Step Allowed (World.call initial) as w ∧ Inv initial w) ∨ Doomed w := by
  refine h.invariant_actions (I := fun as w =>
    (Run Step Allowed (World.call initial) as w ∧ Inv initial w) ∨ Doomed w) ?_
      (Or.inl ⟨.refl _, call_inv initial⟩)
  intro as s a t hs _ hstep
  rcases hs with ⟨hrun, hinv⟩ | hdoomed
  · by_cases hok : Allowed s a
    · exact Or.inl ⟨hrun.snoc hok hstep, step_keeps hinv hok hstep⟩
    · exact Or.inr (not_allowed_doomed hinv hok hstep)
  · exact Or.inr (hdoomed.step hstep)

end Steps

/-- In a run of steps that are allowed the promise holds all along, and in no other run does it hold to
the end. -/
theorem send_sound_iff (initial : Bytes) (as : List Action) (w : World)
    (h : Run Step (fun _ _ => True) (World.call initial) as w) :
    (Run Step Allowed (World.call initial) as w → Sound initial w) ∧
      (w.point = .done → Sound initial w → Run Step Allowed (World.call initial) as w) := by
  constructor
  · intro hallowed
    exact (hallowed.invariant (fun s a t hs hok hstep => step_keeps hs hok hstep)
      (call_inv initial)).sound
  · intro hdone hsound
    rcases run_inv_or_doomed h with ⟨hrun, -⟩ | hdoomed
    · exact hrun
    · exact absurd hsound (hdoomed.not_sound hdone)

/-- A request that is sent and answered: connected, written, one packet and the end of the stream. -/
def answered : List Action :=
  [.main true, .main true, .main true, .callback (.connected true), .main true, .main true, .main true,
    .main true, .main true, .callback (.recv (some (.chained [1, 2] (.last [3]))) true),
    .callback (.recv none true), .main true, .main true, .main true, .main true, .main true, .main true,
    .main true]

theorem send_sound_answered : ∃ w, answered.foldlM World.next (World.call []) = some w ∧
    w.point = .done ∧ w.ret = true ∧
      (Run Step Allowed (World.call []) answered w → Sound [] w) ∧
      (w.point = .done → Sound [] w → Run Step Allowed (World.call []) answered w) :=
  ⟨_, rfl, rfl, rfl, send_sound_iff [] answered _ (Run.of_foldlM (fun _ _ _ => step_of_next) rfl)⟩

/-- The connection is refused. -/
def refused : List Action := [.main true, .main true, .callback (.connected false), .main true]

/-- `altcp_write` fails, and the rest is as it goes. -/
def unwritten : List Action :=
  [.main true, .main true, .main true, .callback (.connected true), .main true, .main true,
    .main false, .main true, .main true, .main true, .main true, .main true, .main true, .main true,
    .main true]

/-- After a timeout the answer comes when the response is taken. -/
def belated : List Action :=
  [.main true, .main true, .main true, .callback .poll, .main true, .main true, .main true, .main true,
    .callback (.recv (some (.last [1])) true), .callback (.recv none true), .main true, .main true,
    .main true]

/-- A connection that was freed is written, the lock is kept, and a request returns true without what was
received. -/
theorem send_unsound :
    (∃ w, Run Step (fun _ _ => True) (World.call []) refused w ∧ w.touched = true ∧ ¬ Sound [] w) ∧
    (∃ w, Run Step (fun _ _ => True) (World.call []) unwritten w ∧ w.point = .done ∧ w.depth = 1 ∧
      ¬ Sound [] w) ∧
    (∃ w, Run Step (fun _ _ => True) (World.call []) belated w ∧ w.point = .done ∧ w.ret = true ∧
      w.received = [[1]] ∧ w.heap.read w.res.recvData = none ∧ ¬ Sound [] w) := by
  refine ⟨⟨_, Run.of_foldlM (fun _ _ _ => step_of_next) rfl, rfl, ?_⟩,
    ⟨_, Run.of_foldlM (fun _ _ _ => step_of_next) rfl, rfl, rfl, ?_⟩,
    ⟨_, Run.of_foldlM (fun _ _ _ => step_of_next) rfl, rfl, rfl, rfl, rfl, ?_⟩⟩
  · intro h
    exact Bool.noConfusion h.untouched
  · intro h
    exact Nat.noConfusion (h.unlocked rfl)
  · intro h
    obtain ⟨contents, honly⟩ := h.current rfl
    have hread := honly.read
    cases hread

end PicoRuby.Net
