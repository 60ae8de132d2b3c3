import PicoRuby.Psg.Reduction
import PicoRuby.Shared.Merge
import Mathlib.Algebra.Order.BigOperators.Group.List
import Mathlib.Data.List.Range

/-!
# MML.compile_multi

The tracks are merged by time. What is yielded of an event is its command and its first argument.
-/

namespace PicoRuby.Psg

open Shared

set_option autoImplicit false

/-- How long an event is: the last slot of `:play` and of `:mute`, which acts as a rest. -/
def eventDuration (e : Event) : Int := if e.command = .play ∨ e.command = .mute then e.arg1 else 0

/-- `yield(delta, min_track, event[0], event[1])`. -/
structure Yield where
  delta : Int
  track : Nat
  command : Command
  arg0 : Int
deriving DecidableEq, Repr

def yielded (y : Int × Nat × Event) : Yield := ⟨y.1, y.2.1, y.2.2.command, y.2.2.arg0⟩

section Compile
variable (F : Type) [MmlFloat F]

/-- `MML.new` as a step of `compile_multi`. -/
def newParser (exception : Bool) (trackId : Nat) (track : Bytes) : Except Failure Mml :=
  match Mml.new F trackId track exception with
  | .ok parser => .ok parser
  | .error e => .error (.raised e)

/-- `parsers`, `tick_table` and `event_table`: a parser for each track with its first event. -/
def startVoices (exception loop : Bool) (fuel : Nat) :
    Nat → List Bytes → Except Failure (List (Voice Mml Event))
  | _, [] => return []
  | trackId, track :: tracks => do
    let parser ← newParser F exception trackId track
    let first ← parser.reduceNext F loop fuel
    let voices ← startVoices exception loop fuel (trackId + 1) tracks
    match first with
    | some (event, source) => return ⟨trackId, source, 0, event⟩ :: voices
    | none => return voices

/-- `compile_multi`: what it yields and how it ends. Each `reduce_next` has so much fuel and the merge
so many steps. -/
def compileMulti (exception loop : Bool) (fuel steps : Nat) (tracks : List Bytes) :
    List Yield × Ending Failure :=
  if tracks = [] then ([], .raised (.raised .noTracks))
  else if 3 < tracks.length then ([], .raised (.raised (.tooManyTracks tracks.length)))
  else match startVoices F exception loop fuel 0 tracks with
    | .error e => ([], .raised e)
    | .ok voices =>
      let merged := merge (Mml.reduceNext F loop fuel) eventDuration steps voices 0
      (merged.1.map yielded, merged.2)

end Compile

/-! ## What the merge has to give -/

/-- The command and the arguments of an event. A duration is not an argument. -/
def Event.arguments (e : Event) : Command × Int × Int :=
  (e.command, e.arg0, if e.command = .play ∨ e.command = .mute then 0 else e.arg1)

/-- The command and the arguments as a block gets them. An argument that is missing is 0. -/
def Yield.received (y : Yield) : Command × Int × Int := (y.command, y.arg0, 0)

/-- What is received, with the times. -/
def receivedAt (yields : List Yield) : List (Int × Nat × Command × Int × Int) :=
  atTimes 0 (yields.map fun y => (y.delta, y.track, y.received))

/-- All that `reduce_next` gives for a track. -/
def TrackEvents (F : Type) [MmlFloat F] (exception : Bool) (fuel trackId : Nat) (track : Bytes)
    (events : List Event) : Prop :=
  ∃ parser, Mml.new F trackId track exception = .ok parser ∧
    Produces (Mml.reduceNext F false fuel) parser events

theorem trackEvents_of_produced {F : Type} [MmlFloat F] {exception : Bool} {fuel trackId n : Nat}
    {track : Bytes} {events : List Event}
    (h : (Mml.new F trackId track exception).toOption.bind
      (produced (Mml.reduceNext F false fuel) n) = some events) :
    TrackEvents F exception fuel trackId track events := by
  obtain ⟨parser, hparser, hevents⟩ := Option.bind_eq_some_iff.mp h
  refine ⟨parser, ?_, produces_of_produced hevents⟩
  cases hnew : Mml.new F trackId track exception with
  | error e =>
    rw [hnew] at hparser
    cases hparser
  | ok own =>
    rw [hnew] at hparser
    cases hparser
    rfl

/-- Each track has its events. -/
def TracksEvents (F : Type) [MmlFloat F] (exception : Bool) (fuel : Nat) (tracks : List Bytes)
    (eventsOf : Nat → List Event) : Prop :=
  ∀ k track, tracks[k]? = some track → TrackEvents F exception fuel k track (eventsOf k)

/-- So many tracks are merged: each event is there once, in the order of its track, at the time that
its track has come to, with its arguments. -/
structure MergesTracks (count : Nat) (eventsOf : Nat → List Event) (yields : List Yield) (time : Int) :
    Prop where
  tracks : ∀ k < count, ofTrack k (receivedAt yields) =
    (clocked eventDuration 0 (eventsOf k)).map fun e => (e.1, e.2.arguments)
  others : ∀ y ∈ yields, y.track < count
  deltas : ∀ y ∈ yields, 0 ≤ y.delta
  last : (receivedAt yields).getLast?.map Prod.fst = some time

/-- The only second argument is the rate of `:lfo`. -/
theorem arguments_rate {e : Event} (h : e.InRange) :
    e.arguments.2.2 = 0 ↔ e.command = .lfo → e.arg1 = 0 := by
  obtain ⟨command, arg0, arg1⟩ := e
  cases command with
  | play => exact ⟨fun _ hlfo => Command.noConfusion hlfo, fun _ => rfl⟩
  | mute => exact ⟨fun _ hlfo => Command.noConfusion hlfo, fun _ => rfl⟩
  | lfo => exact ⟨fun h _ => h, fun h => h rfl⟩
  | segno => exact ⟨fun _ hlfo => Command.noConfusion hlfo, fun _ => h⟩
  | _ => exact ⟨fun _ hlfo => Command.noConfusion hlfo, fun _ => h.2⟩

theorem eventDuration_nonneg {e : Event} (h : e.InRange) : 0 ≤ eventDuration e := by
  obtain ⟨command, arg0, arg1⟩ := e
  unfold eventDuration
  cases command with
  | play => exact Int.le_of_lt h.2
  | mute => exact h.2
  | _ => exact Int.le_refl 0

/-! ## The parsers -/

section Parsers
variable {F : Type} [MmlFloat F] {exception : Bool} {fuel first : Nat} {track : Bytes}
variable {tracks : List Bytes} {voices : List (Voice Mml Event)}

/-- What a parser starts with. -/
structure Mml.Fresh (m : Mml) : Prop where
  queue : m.eventQueue = []
  finished : m.finished = false
  cursor : m.cursor = 0
  segno : m.segnoPos = 0

theorem Mml.new_ok {m : Mml} {trackId : Nat} (h : Mml.new F trackId track exception = .ok m) :
    m.Fresh ∧ ∃ expanded, expandLoops track = .ok expanded ∧ m.track = downcase expanded := by
  obtain ⟨expanded, hexpanded, h⟩ := bind_eq_ok.mp h
  obtain ⟨commonDuration, rfl⟩ := updateCommonDuration_ok h
  exact ⟨⟨rfl, rfl, rfl, rfl⟩, expanded, hexpanded, rfl⟩

theorem newParser_ok {m : Mml} {trackId : Nat} :
    newParser F exception trackId track = .ok m ↔ Mml.new F trackId track exception = .ok m := by
  unfold newParser
  cases hnew : Mml.new F trackId track exception with
  | error e =>
    constructor
    · intro h
      cases h
    · intro h
      cases h
  | ok parser =>
    constructor
    · intro h
      cases h
      rfl
    · intro h
      cases h
      rfl

theorem Mml.Fresh.reduceNext_ne_none {m : Mml} (h : m.Fresh) :
    m.reduceNext F false fuel ≠ .ok none := by
  intro hnone
  rcases reduceNext_cases hnone with ⟨hqueue, -⟩ | ⟨hfinished, -⟩ | ⟨-, n, hpasses, hshift⟩
  · exact hqueue h.queue
  · exact Bool.false_ne_true (h.finished.symm.trans hfinished)
  · obtain ⟨-, -, -, hqueue⟩ := passes_ok (m := { m with modRate := none }) h.finished hpasses
    unfold Mml.shiftEvent at hshift
    split at hshift
    · rename_i hnil
      exact hqueue hnil
    · cases hshift

/-- A track has come to its first event. -/
structure Started (F : Type) [MmlFloat F] (exception loop : Bool) (fuel trackId : Nat) (track : Bytes)
    (v : Voice Mml Event) : Prop where
  number : v.track = trackId
  tick : v.tick = 0
  parser : ∃ parser, Mml.new F trackId track exception = .ok parser ∧
    parser.reduceNext F loop fuel = .ok (some (v.event, v.source))

theorem startVoices_cons {loop : Bool}
    (h : startVoices F exception loop fuel first (track :: tracks) = .ok voices) :
    ∃ parser result rest, Mml.new F first track exception = .ok parser ∧
      parser.reduceNext F loop fuel = .ok result ∧
      startVoices F exception loop fuel (first + 1) tracks = .ok rest ∧
      voices = (result.map fun r => ⟨first, r.2, 0, r.1⟩).toList ++ rest := by
  unfold startVoices at h
  obtain ⟨parser, hparser, h⟩ := bind_eq_ok.mp h
  obtain ⟨result, hresult, h⟩ := bind_eq_ok.mp h
  obtain ⟨rest, hrest, h⟩ := bind_eq_ok.mp h
  refine ⟨parser, result, rest, newParser_ok.mp hparser, hresult, hrest, ?_⟩
  cases result with
  | none =>
    cases h
    rfl
  | some r =>
    obtain ⟨event, source⟩ := r
    cases h
    rfl

theorem startVoices_started {loop : Bool}
    (h : startVoices F exception loop fuel first tracks = .ok voices) :
    ∀ v ∈ voices, ∃ k track, tracks[k]? = some track ∧
      Started F exception loop fuel (first + k) track v := by
  induction tracks generalizing first voices with
  | nil =>
    cases h
    exact fun v hv => absurd hv List.not_mem_nil
  | cons track tracks ih =>
    obtain ⟨parser, result, rest, hparser, hresult, hrest, rfl⟩ := startVoices_cons h
    intro v hv
    rcases List.mem_append.mp hv with hv | hv
    · obtain ⟨r, hr, rfl⟩ := Option.map_eq_some_iff.mp (Option.mem_toList.mp hv)
      rw [hr] at hresult
      exact ⟨0, track, rfl, rfl, rfl, parser, hparser, hresult⟩
    · obtain ⟨k, other, hk, hstarted⟩ := ih hrest v hv
      refine ⟨k + 1, other, hk, ?_⟩
      rw [Nat.add_right_comm, Nat.add_assoc] at hstarted
      exact hstarted

/-- Without a loop every track has a first event. -/
theorem startVoices_tracks (h : startVoices F exception false fuel first tracks = .ok voices) :
    voices.map Voice.track = List.range' first tracks.length := by
  induction tracks generalizing first voices with
  | nil =>
    cases h
    rfl
  | cons track tracks ih =>
    obtain ⟨parser, result, rest, hparser, hresult, hrest, rfl⟩ := startVoices_cons h
    cases result with
    | none => exact absurd hresult (Mml.new_ok hparser).1.reduceNext_ne_none
    | some r =>
      change first :: rest.map Voice.track = _
      rw [ih hrest]
      rfl

theorem startVoices_voice (h : startVoices F exception false fuel 0 tracks = .ok voices) {k : Nat}
    (hk : tracks[k]? = some track) : ∃ v ∈ voices, Started F exception false fuel k track v := by
  have hlt : k < tracks.length := (List.getElem?_eq_some_iff.mp hk).1
  have hmem : k ∈ voices.map Voice.track := by
    rw [startVoices_tracks h, List.mem_range'_1]
    omega
  obtain ⟨v, hv, hvk⟩ := List.mem_map.mp hmem
  obtain ⟨j, other, hj, hstarted⟩ := startVoices_started h v hv
  have heq : k = j := hvk.symm.trans (hstarted.number.trans (Nat.zero_add j))
  subst heq
  cases hk.symm.trans hj
  rw [Nat.zero_add] at hstarted
  exact ⟨v, hv, hstarted⟩

theorem startVoices_nodup (h : startVoices F exception false fuel 0 tracks = .ok voices) :
    (voices.map Voice.track).Nodup := by
  rw [startVoices_tracks h]
  exact List.nodup_range'

end Parsers

/-! ## Enough fuel -/

section Fuel
variable {F : Type} [MmlFloat F] {exception : Bool} {fuel bound : Nat} {tracks : List Bytes}
variable {voices : List (Voice Mml Event)} {eventsOf : Nat → List Event}

/-- The tracks are not so long when their loops are expanded. -/
def Fits (bound : Nat) (tracks : List Bytes) : Prop :=
  ∀ track ∈ tracks, ∀ expanded, expandLoops track = .ok expanded → expanded.length < bound

theorem Fits.mono (h : Fits bound tracks) (hle : bound ≤ fuel) : Fits fuel tracks :=
  fun track htrack expanded hexpanded => Nat.lt_of_lt_of_le (h track htrack expanded hexpanded) hle

theorem exists_fits (tracks : List Bytes) : ∃ bound, Fits bound tracks := by
  induction tracks with
  | nil => exact ⟨0, fun track htrack => absurd htrack List.not_mem_nil⟩
  | cons track tracks ih =>
    obtain ⟨bound, hbound⟩ := ih
    cases hexpand : expandLoops track with
    | error e =>
      refine ⟨bound, ?_⟩
      intro other hother expanded hexpanded
      rcases List.mem_cons.mp hother with rfl | hother
      · rw [hexpand] at hexpanded
        cases hexpanded
      · exact hbound other hother expanded hexpanded
    | ok own =>
      refine ⟨bound + own.length + 1, ?_⟩
      intro other hother expanded hexpanded
      rcases List.mem_cons.mp hother with rfl | hother
      · rw [hexpand] at hexpanded
        cases hexpanded
        omega
      · have hlt := hbound other hother expanded hexpanded
        omega

/-- A parser that `reduce_next` has the fuel for. -/
structure Mml.Ready (fuel : Nat) (m : Mml) : Prop where
  queue : QueueInRange m
  fits : m.track.length < fuel

theorem new_ready {m : Mml} {trackId : Nat} {track : Bytes} (hfits : Fits fuel tracks)
    (htrack : track ∈ tracks) (h : Mml.new F trackId track exception = .ok m) : m.Ready fuel := by
  obtain ⟨hfresh, expanded, hexpanded, hown⟩ := Mml.new_ok h
  refine ⟨?_, ?_⟩
  · intro e he
    rw [hfresh.queue] at he
    exact absurd he List.not_mem_nil
  · rw [hown, downcase, List.length_map]
    exact hfits track htrack expanded hexpanded

theorem reduceNext_ready {m m' : Mml} {e : Event} (hready : m.Ready fuel)
    (h : m.reduceNext F false fuel = .ok (some (e, m'))) :
    m'.Ready fuel ∧ e.InRange ∧ m'.potential < m.potential := by
  obtain ⟨hrange, hqueue, htrack, hless⟩ := Mml.reduceNext_some hready.queue h
  exact ⟨⟨hqueue, htrack ▸ hready.fits⟩, hrange, hless⟩

theorem reduceNext_keeps : Keeps (Mml.reduceNext F false fuel) (Mml.Ready fuel) Event.InRange
    (· ≠ .endless) := by
  refine ⟨?_, ?_⟩
  · intro m e m' hready h
    obtain ⟨hready', hrange, -⟩ := reduceNext_ready hready h
    exact ⟨hready', hrange⟩
  · intro m x hready h hendless
    rw [hendless] at h
    exact Mml.reduceNext_not_endless hready.fits h

theorem newParser_errors {trackId : Nat} {track : Bytes} :
    ErrorsIn (· ≠ .endless) (newParser F exception trackId track) := by
  intro x hx hendless
  unfold newParser at hx
  split at hx
  · cases hx
  · cases hx
    cases hendless

theorem startVoices_errors {first : Nat} (hfits : Fits fuel tracks) :
    ErrorsIn (· ≠ .endless) (startVoices F exception false fuel first tracks) := by
  induction tracks generalizing first with
  | nil => exact ErrorsIn.ok
  | cons track tracks ih =>
    unfold startVoices
    refine newParser_errors.bind fun parser hparser => ?_
    have hready := new_ready hfits List.mem_cons_self (newParser_ok.mp hparser)
    refine ErrorsIn.bind (fun x => reduceNext_keeps.raises parser x hready) fun first _ => ?_
    refine (ih fun other hother => hfits other (List.mem_cons_of_mem _ hother)).bind fun voices _ => ?_
    cases first with
    | none => exact ErrorsIn.ok
    | some r => exact ErrorsIn.ok

/-- The voices start as the parsers go on. -/
theorem voices_ready (hfits : Fits fuel tracks)
    (h : startVoices F exception false fuel 0 tracks = .ok voices) :
    VoicesKept (Mml.Ready fuel) Event.InRange voices := by
  intro v hv
  obtain ⟨k, track, hk, hstarted⟩ := startVoices_started h v hv
  obtain ⟨parser, hnew, hnext⟩ := hstarted.parser
  have hready := new_ready hfits (List.mem_of_getElem? hk) hnew
  obtain ⟨hready', hrange, -⟩ := reduceNext_ready hready hnext
  exact ⟨hready', hrange⟩

theorem voices_measure (hfits : Fits bound tracks) (hle : bound ≤ fuel)
    (h : startVoices F exception false fuel 0 tracks = .ok voices) :
    measureSum Mml.potential voices ≤ tracks.length * (3 * bound) := by
  have hlength : voices.length = tracks.length := by
    have htracks := congrArg List.length (startVoices_tracks h)
    rw [List.length_map, List.length_range'] at htracks
    exact htracks
  have hsum := List.sum_le_card_nsmul (voices.map fun v => v.source.potential + 1) (3 * bound) ?_
  · rw [List.length_map, hlength, nsmul_eq_mul] at hsum
    exact hsum
  · intro n hn
    obtain ⟨v, hv, rfl⟩ := List.mem_map.mp hn
    obtain ⟨k, track, hk, hstarted⟩ := startVoices_started h v hv
    obtain ⟨parser, hnew, hnext⟩ := hstarted.parser
    have hready := new_ready (hfits.mono hle) (List.mem_of_getElem? hk) hnew
    obtain ⟨-, -, hless⟩ := reduceNext_ready hready hnext
    have hshort := (new_ready hfits (List.mem_of_getElem? hk) hnew).fits
    obtain ⟨hfresh, -⟩ := Mml.new_ok hnew
    have hfull : parser.potential = 1 + 3 * parser.track.length := by
      unfold Mml.potential
      rw [hfresh.queue, hfresh.cursor, if_neg]
      · rw [List.length_nil, Nat.sub_zero, Nat.zero_add]
      · rw [hfresh.finished]
        exact Bool.false_ne_true
    omega

end Fuel

/-! ## The merge -/

section Merge
variable {F : Type} [MmlFloat F] {exception loop : Bool} {fuel steps : Nat} {tracks : List Bytes}
variable {voices : List (Voice Mml Event)} {eventsOf : Nat → List Event}

theorem compileMulti_of_voices (hne : tracks ≠ []) (hlen : tracks.length ≤ 3)
    (h : startVoices F exception loop fuel 0 tracks = .ok voices) :
    compileMulti F exception loop fuel steps tracks =
      ((merge (Mml.reduceNext F loop fuel) eventDuration steps voices 0).1.map yielded,
        (merge (Mml.reduceNext F loop fuel) eventDuration steps voices 0).2) := by
  unfold compileMulti
  rw [if_neg hne, if_neg (Nat.not_lt.mpr hlen), h]

theorem compileMulti_of_error (hne : tracks ≠ []) (hlen : tracks.length ≤ 3) {x : Failure}
    (h : startVoices F exception loop fuel 0 tracks = .error x) :
    compileMulti F exception loop fuel steps tracks = ([], .raised x) := by
  unfold compileMulti
  rw [if_neg hne, if_neg (Nat.not_lt.mpr hlen), h]

theorem compileMulti_mem {y : Yield}
    (h : y ∈ (compileMulti F exception loop fuel steps tracks).1) : tracks.length ≤ 3 ∧
      ∃ voices, startVoices F exception loop fuel 0 tracks = .ok voices ∧
        ∃ x ∈ (merge (Mml.reduceNext F loop fuel) eventDuration steps voices 0).1, yielded x = y := by
  unfold compileMulti at h
  split at h
  · exact absurd h List.not_mem_nil
  · split at h
    · exact absurd h List.not_mem_nil
    · rename_i hlen
      refine ⟨Nat.not_lt.mp hlen, ?_⟩
      cases hvoices : startVoices F exception loop fuel 0 tracks with
      | error x =>
        rw [hvoices] at h
        exact absurd h List.not_mem_nil
      | ok voices =>
        rw [hvoices] at h
        exact ⟨voices, rfl, List.mem_map.mp h⟩

/-- The first event of a track is with its voice and the others are still to come. -/
theorem started_events {k : Nat} {track : Bytes} {v : Voice Mml Event} {events : List Event}
    (hstarted : Started F exception false fuel k track v)
    (h : TrackEvents F exception fuel k track events) :
    v.event :: events.tail = events ∧ Produces (Mml.reduceNext F false fuel) v.source events.tail := by
  obtain ⟨parser, hnew, hnext⟩ := hstarted.parser
  obtain ⟨own, hown, hproduces⟩ := h
  cases hnew.symm.trans hown
  cases hproduces with
  | done hnone =>
    rw [hnext] at hnone
    cases hnone
  | more hsome rest =>
    rw [hnext] at hsome
    cases hsome
    exact ⟨rfl, rest⟩

theorem voice_started (h : startVoices F exception false fuel 0 tracks = .ok voices)
    {v : Voice Mml Event} (hv : v ∈ voices) : ∃ track, tracks[v.track]? = some track ∧
      Started F exception false fuel v.track track v := by
  obtain ⟨k, track, hk, hstarted⟩ := startVoices_started h v hv
  have heq : k = v.track := (Nat.zero_add k).symm.trans hstarted.number.symm
  rw [Nat.zero_add] at hstarted
  exact ⟨track, heq ▸ hk, heq ▸ hstarted⟩

theorem voices_pending (hfits : Fits fuel tracks)
    (h : startVoices F exception false fuel 0 tracks = .ok voices)
    (hevents : TracksEvents F exception fuel tracks eventsOf) :
    Pending (Mml.reduceNext F false fuel) eventDuration voices fun k => (eventsOf k).tail := by
  have hready := voices_ready hfits h
  refine ⟨startVoices_nodup h, ?_, ?_⟩
  · intro v hv
    obtain ⟨track, hk, hstarted⟩ := voice_started h hv
    exact (started_events hstarted (hevents v.track track hk)).2
  · intro v hv e he
    obtain ⟨track, hk, hstarted⟩ := voice_started h hv
    obtain ⟨-, hproduces⟩ := started_events hstarted (hevents v.track track hk)
    apply eventDuration_nonneg
    rcases List.mem_cons.mp he with rfl | he
    · exact (hready v hv).2
    · exact reduceNext_keeps.produces (hready v hv).1 hproduces e he

theorem pendingCount_le (hfits : Fits fuel tracks)
    (h : startVoices F exception false fuel 0 tracks = .ok voices)
    (hevents : TracksEvents F exception fuel tracks eventsOf) :
    pendingCount voices (fun k => (eventsOf k).tail) ≤ measureSum Mml.potential voices := by
  have hready := voices_ready hfits h
  apply List.sum_le_sum
  intro v hv
  obtain ⟨track, hk, hstarted⟩ := voice_started h hv
  obtain ⟨-, hproduces⟩ := started_events hstarted (hevents v.track track hk)
  apply Nat.add_le_add_right
  refine hproduces.length_le ?_ (hready v hv).1
  intro m e m' hm hnext
  obtain ⟨hready', -, hless⟩ := reduceNext_ready hm hnext
  exact ⟨hready', hless⟩

theorem receivedAt_yielded (events : List (Int × Nat × Event)) :
    receivedAt (events.map yielded) =
      (atTimes 0 events).map fun y => (y.1, y.2.1, y.2.2.command, y.2.2.arg0, 0) := by
  have hmap := @atTimes_map Int (Nat × Event) _ 0 events (Nat × Command × Int × Int)
    fun y => (y.1, y.2.command, y.2.arg0, 0)
  rw [receivedAt, List.map_map]
  exact hmap

/-- The merge has everything but the rates. -/
theorem merged_iff {count : Nat} {rest : Nat → List Event} {events : List (Int × Nat × Event)}
    (hmerged : Merged eventDuration voices rest 0 events) (hnonempty : events ≠ [])
    (htracks : voices.map Voice.track = List.range count)
    (hvoices : ∀ v ∈ voices, v.tick = 0 ∧ v.event :: rest v.track = eventsOf v.track)
    (hranges : ∀ k < count, ∀ e ∈ eventsOf k, e.InRange) :
    MergesTracks count eventsOf (events.map yielded) (endTime 0 events) ↔
      ∀ k < count, ∀ e ∈ eventsOf k, e.command = .lfo → e.arg1 = 0 := by
  have hown (k : Nat) (hk : k < count) : ofTrack k (receivedAt (events.map yielded)) =
      (clocked eventDuration 0 (eventsOf k)).map fun e => (e.1, e.2.command, e.2.arg0, 0) := by
    obtain ⟨v, hv, rfl⟩ := List.mem_map.mp (htracks ▸ List.mem_range.mpr hk)
    obtain ⟨htick, hevents⟩ := hvoices v hv
    rw [receivedAt_yielded, ofTrack_map fun e : Event => (e.command, e.arg0, (0 : Int)),
      hmerged.tracks v hv, htick, hevents]
  have hsame (k : Nat) (hk : k < count) :
      ofTrack k (receivedAt (events.map yielded)) =
          (clocked eventDuration 0 (eventsOf k)).map (fun e => (e.1, e.2.arguments)) ↔
        ∀ e ∈ eventsOf k, e.command = .lfo → e.arg1 = 0 := by
    rw [hown k hk, List.map_inj_left]
    constructor
    · intro h e he
      have hmem : e ∈ (clocked eventDuration 0 (eventsOf k)).map Prod.snd := by
        rw [clocked_snd]
        exact he
      obtain ⟨⟨t, f⟩, hf, rfl⟩ := List.mem_map.mp hmem
      have hrate := congrArg (fun r => r.2.2.2) (h _ hf)
      exact (arguments_rate (hranges k hk f he)).mp hrate.symm
    · intro h e he
      have hmem : e.2 ∈ eventsOf k := by
        rw [← @clocked_snd _ eventDuration 0 (eventsOf k)]
        exact List.mem_map_of_mem he
      have hrate := (arguments_rate (hranges k hk e.2 hmem)).mpr (h e.2 hmem)
      rw [← hrate]
      rfl
  constructor
  · intro h k hk
    exact (hsame k hk).mp (h.tracks k hk)
  · intro h
    refine ⟨fun k hk => (hsame k hk).mpr (h k hk), ?_, ?_, ?_⟩
    · intro y hy
      obtain ⟨x, hx, rfl⟩ := List.mem_map.mp hy
      have hmem := hmerged.others x hx
      rw [htracks] at hmem
      exact List.mem_range.mp hmem
    · intro y hy
      obtain ⟨x, hx, rfl⟩ := List.mem_map.mp hy
      exact hmerged.deltas x hx
    · rw [receivedAt_yielded, List.getLast?_map, Option.map_map]
      exact atTimes_getLast? hnonempty

/-- With enough fuel, tracks that have all their events are merged to the end. -/
theorem compileMulti_returns (hne : tracks ≠ []) (hlen : tracks.length ≤ 3) (hfits : Fits fuel tracks)
    (hsteps : measureSum Mml.potential voices < steps)
    (h : startVoices F exception false fuel 0 tracks = .ok voices)
    (hevents : TracksEvents F exception fuel tracks eventsOf) : ∃ time,
      (compileMulti F exception false fuel steps tracks).2 = .returned time ∧
        (MergesTracks tracks.length eventsOf
            (compileMulti F exception false fuel steps tracks).1 time ↔
          ∀ k < tracks.length, ∀ e ∈ eventsOf k, e.command = .lfo → e.arg1 = 0) := by
  have hready := voices_ready hfits h
  have hcount := pendingCount_le hfits h hevents
  have hahead : ∀ v ∈ voices, 0 ≤ v.tick := by
    intro v hv
    obtain ⟨track, -, hstarted⟩ := voice_started h hv
    exact Int.le_of_eq hstarted.tick.symm
  obtain ⟨events, hmerge, hmerged⟩ := merge_merged (voices_pending hfits h hevents) hahead
    (Nat.lt_of_le_of_lt hcount hsteps)
  have hrange : voices.map Voice.track = List.range tracks.length := by
    rw [startVoices_tracks h, List.range_eq_range']
  rw [compileMulti_of_voices hne hlen h, hmerge]
  refine ⟨endTime 0 events, rfl, merged_iff hmerged ?_ hrange ?_ ?_⟩
  · intro hnil
    obtain ⟨v, hv, hfirst⟩ :=
      List.mem_map.mp (hrange ▸ List.mem_range.mpr (List.length_pos_iff.mpr hne))
    have hnone := hmerged.tracks v hv
    replace hnil : events = [] := hnil
    rw [hnil] at hnone
    cases hnone
  · intro v hv
    obtain ⟨track, hk, hstarted⟩ := voice_started h hv
    exact ⟨hstarted.tick, (started_events hstarted (hevents v.track track hk)).1⟩
  · intro k hk e he
    obtain ⟨parser, hnew, hproduces⟩ := hevents k tracks[k] (List.getElem?_eq_getElem hk)
    exact reduceNext_keeps.produces (new_ready hfits (List.getElem_mem hk) hnew) hproduces e he

/-- What goes wrong in the merge is raised by a track that does not have all its events. -/
theorem compileMulti_raises (hne : tracks ≠ []) (hlen : tracks.length ≤ 3) (hfits : Fits fuel tracks)
    (hsteps : measureSum Mml.potential voices < steps)
    (h : startVoices F exception false fuel 0 tracks = .ok voices)
    (hnone : ¬ ∃ eventsOf, TracksEvents F exception fuel tracks eventsOf) :
    ∃ e, (compileMulti F exception false fuel steps tracks).2 = .raised (.raised e) := by
  have hready := voices_ready hfits h
  have hends := @merge_ends _ _ _ (Mml.reduceNext F false fuel) eventDuration Mml.potential steps
    voices 0 (Mml.Ready fuel) (fun m e m' hm hnext => ⟨(reduceNext_ready hm hnext).1,
      (reduceNext_ready hm hnext).2.2⟩) (fun v hv => (hready v hv).1) (startVoices_nodup h) hsteps
  have hkept := @merge_keeps _ _ _ _ eventDuration _ _ _ steps voices 0
    (@reduceNext_keeps F _ fuel) hready
  rw [compileMulti_of_voices hne hlen h]
  cases hending : (merge (Mml.reduceNext F false fuel) eventDuration steps voices 0).2 with
  | running => exact absurd hending hends
  | raised x =>
    cases x with
    | raised e => exact ⟨e, rfl⟩
    | endless => exact absurd rfl (hkept.2 _ hending)
  | returned time =>
    exfalso
    apply hnone
    have hproduces := produces_of_returned (startVoices_nodup h) hending
    have hall (k : Nat) : ∃ events, ∀ track, tracks[k]? = some track →
        TrackEvents F exception fuel k track events := by
      cases htrack : tracks[k]? with
      | none => exact ⟨[], fun track hk => by cases hk⟩
      | some track =>
        obtain ⟨v, hv, hstarted⟩ := startVoices_voice h htrack
        obtain ⟨parser, hnew, hnext⟩ := hstarted.parser
        obtain ⟨events, hevents⟩ := hproduces v hv
        refine ⟨v.event :: events, ?_⟩
        intro other hother
        cases hother
        exact ⟨parser, hnew, .more hnext hevents⟩
    exact ⟨fun k => (hall k).choose, fun k track hk => (hall k).choose_spec track hk⟩

theorem startVoices_returns {first : Nat} (h : ∀ k track, tracks[k]? = some track →
    ∃ parser result, Mml.new F (first + k) track exception = .ok parser ∧
      parser.reduceNext F loop fuel = .ok result) :
    ∃ voices, startVoices F exception loop fuel first tracks = .ok voices := by
  induction tracks generalizing first with
  | nil => exact ⟨[], rfl⟩
  | cons track tracks ih =>
    obtain ⟨parser, result, hnew, hresult⟩ := h 0 track rfl
    rw [Nat.add_zero] at hnew
    have hrest : ∃ voices, startVoices F exception loop fuel (first + 1) tracks = .ok voices := by
      apply ih
      intro k other hk
      rw [Nat.add_right_comm, Nat.add_assoc]
      exact h (k + 1) other hk
    obtain ⟨voices, hvoices⟩ := hrest
    refine ⟨(result.map fun r => ⟨first, r.2, 0, r.1⟩).toList ++ voices, ?_⟩
    unfold startVoices
    rw [newParser_ok.mpr hnew]
    change (parser.reduceNext F loop fuel >>= _) = _
    rw [hresult]
    rw [hvoices]
    cases result with
    | none => rfl
    | some r => rfl

theorem startVoices_of_events (hevents : TracksEvents F exception fuel tracks eventsOf) :
    ∃ voices, startVoices F exception false fuel 0 tracks = .ok voices := by
  apply startVoices_returns
  intro k track hk
  obtain ⟨parser, hnew, hproduces⟩ := hevents k track hk
  rw [Nat.zero_add]
  generalize eventsOf k = events at hproduces
  cases hproduces with
  | done hnone => exact ⟨parser, none, hnew, hnone⟩
  | more hsome _ => exact ⟨parser, _, hnew, hsome⟩

end Merge

/-! ## Without a segno -/

/-- There is no `$` in the track. -/
structure Mml.Plain (m : Mml) : Prop where
  segno : m.segnoPos = 0
  track : 36 ∉ m.track
  queue : ∀ e ∈ m.eventQueue, e.command ≠ .segno

section Plain
variable {F : Type} [MmlFloat F] {exception : Bool} {fuel steps : Nat} {m m' : Mml}

theorem expand_subset {n depth : Nat} {str result expanded rest : Bytes}
    (h : expand n str depth result = .ok (expanded, rest)) :
    (∀ c ∈ expanded, c ∈ str ∨ c ∈ result) ∧ ∀ c ∈ rest, c ∈ str := by
  induction n generalizing str depth result expanded rest with
  | zero =>
    cases h
    exact ⟨fun c hc => Or.inr hc, fun c hc => hc⟩
  | succ n ih =>
    cases str with
    | nil =>
      cases h
      exact ⟨fun c hc => Or.inr hc, fun c hc => hc⟩
    | cons b str =>
      unfold expand at h
      split at h
      · split at h
        · cases h
        · obtain ⟨⟨inner, behind⟩, hinner, h⟩ := bind_eq_ok.mp h
          obtain ⟨hin, hbehind⟩ := ih hinner
          obtain ⟨hout, hrest⟩ := ih h
          have hdrop {c : UInt8} (hc : c ∈ behind.dropWhile isDigit) : c ∈ b :: str :=
            List.mem_cons_of_mem b (hbehind c ((List.dropWhile_sublist _).mem hc))
          refine ⟨?_, fun c hc => hdrop (hrest c hc)⟩
          intro c hc
          rcases hout c hc with hc | hc
          · exact Or.inl (hdrop hc)
          · rcases List.mem_append.mp hc with hc | hc
            · exact Or.inr hc
            · obtain ⟨copy, hcopy, hc⟩ := List.mem_flatten.mp hc
              rw [(List.mem_replicate.mp hcopy).2] at hc
              rcases hin c hc with hc | hc
              · exact Or.inl (List.mem_cons_of_mem b hc)
              · exact absurd hc List.not_mem_nil
      · split at h
        · cases h
          exact ⟨fun c hc => Or.inr hc, fun c hc => List.mem_cons_of_mem b hc⟩
        · split at h
          · obtain ⟨hout, hrest⟩ := ih h
            refine ⟨?_, fun c hc => List.mem_cons_of_mem b (hrest c hc)⟩
            intro c hc
            exact (hout c hc).imp_left fun hc => List.mem_cons_of_mem b hc
          · obtain ⟨hout, hrest⟩ := ih h
            refine ⟨?_, fun c hc => List.mem_cons_of_mem b (hrest c hc)⟩
            intro c hc
            rcases hout c hc with hc | hc
            · exact Or.inl (List.mem_cons_of_mem b hc)
            · rcases List.mem_append.mp hc with hc | hc
              · exact Or.inr hc
              · rw [List.mem_singleton.mp hc]
                exact Or.inl List.mem_cons_self

theorem new_plain {trackId : Nat} {track : Bytes} (htrack : 36 ∉ track)
    (h : Mml.new F trackId track exception = .ok m) : m.Plain := by
  obtain ⟨hfresh, expanded, hexpanded, hown⟩ := Mml.new_ok h
  refine ⟨hfresh.segno, ?_, ?_⟩
  · intro hmem
    obtain ⟨⟨result, rest⟩, hexpand, hret⟩ := bind_eq_ok.mp hexpanded
    cases hret
    rw [hown] at hmem
    obtain ⟨c, hc, hdown⟩ := List.mem_map.mp hmem
    have hsame : c = 36 := by
      revert hdown
      split
      · rename_i hcapital
        intro hdown
        have hnat := congrArg UInt8.toNat hdown
        have hlow : 65 ≤ c.toNat := hcapital.1
        have hhigh : c.toNat ≤ 90 := hcapital.2
        rw [UInt8.toNat_add] at hnat
        replace hnat : (c.toNat + 32) % 2 ^ 8 = 36 := hnat
        omega
      · exact fun hdown => hdown
    rcases (expand_subset hexpand).1 c hc with hc | hc
    · exact htrack (hsame ▸ hc)
    · exact List.not_mem_nil hc
  · intro e he
    rw [hfresh.queue] at he
    exact absurd he List.not_mem_nil

theorem pass_loop (h : m.Plain) : m.pass F true = m.pass F false := by
  have hnot : ¬ 0 < m.segnoPos := by
    rw [h.segno]
    exact Nat.lt_irrefl 0
  unfold Mml.pass
  split
  · rw [if_neg (fun hloop => hnot hloop.2), if_neg (fun hloop => hnot hloop.2)]
  · rfl

theorem pass_plain {stop : Bool} (hm : m.Plain) (h : m.pass F false = .ok (m', stop)) :
    m'.Plain := by
  cases Mml.pass_cases h with
  | ends hbyte h hstop =>
    rw [h]
    refine ⟨hm.segno, hm.track, ?_⟩
    intro e he
    rcases List.mem_append.mp he with he | he
    · exact hm.queue e he
    · rw [List.mem_singleton.mp he]
      exact fun heq => Command.noConfusion heq
  | rewinds hloop h hstop => cases hloop
  | takes c new hbyte hadvances hcursor hstop =>
    have hc : c ≠ 36 := by
      intro heq
      obtain ⟨byte, hbyte', hnat⟩ := Option.map_eq_some_iff.mp hbyte
      have hsame : byte = 36 := UInt8.toNat.inj (hnat.trans heq)
      exact hm.track (hsame ▸ List.mem_of_getElem? hbyte')
    obtain ⟨hsegno, hnew⟩ := hadvances.segno hc
    refine ⟨hsegno.trans hm.segno, hadvances.track ▸ hm.track, ?_⟩
    intro e he
    rw [hadvances.queue] at he
    rcases List.mem_append.mp he with he | he
    · exact hm.queue e he
    · exact hnew e he

theorem passes_loop (h : m.Plain) : Mml.passes F true fuel m = Mml.passes F false fuel m := by
  induction fuel generalizing m with
  | zero => rfl
  | succ fuel ih =>
    unfold Mml.passes
    rw [pass_loop h]
    split
    · rfl
    · rename_i next stop hpass
      rw [ih (pass_plain h hpass)]

theorem reduceNext_loop (h : m.Plain) :
    m.reduceNext F true fuel = m.reduceNext F false fuel := by
  unfold Mml.reduceNext
  rw [passes_loop (m := { m with modRate := none }) ⟨h.segno, h.track, h.queue⟩]

theorem shiftEvent_plain {e : Event} (hm : m.Plain) (h : m.shiftEvent = some (e, m')) :
    m'.Plain ∧ e.command ≠ .segno := by
  unfold Mml.shiftEvent at h
  split at h
  · cases h
  · rename_i event events hevents
    cases h
    have hqueue := hm.queue
    rw [hevents] at hqueue
    exact ⟨⟨hm.segno, hm.track, fun f hf => hqueue f (List.mem_cons_of_mem e hf)⟩,
      hqueue e List.mem_cons_self⟩

theorem reduceNext_keeps_plain : Keeps (Mml.reduceNext F false fuel) Mml.Plain
    (fun e : Event => e.command ≠ .segno) (fun _ => True) := by
  refine ⟨?_, fun _ _ _ _ => trivial⟩
  intro m e m' hm h
  rcases Mml.reduceNext_cases h with ⟨-, hshift⟩ | ⟨-, hnone⟩ | ⟨-, n, hpasses, hshift⟩
  · exact shiftEvent_plain hm hshift.symm
  · cases hnone
  · have hkept : n.Plain := Mml.passes_keep (fun _ _ _ hq hpass => pass_plain hq hpass)
      (show Mml.Plain { m with modRate := none } from ⟨hm.segno, hm.track, hm.queue⟩) hpasses
    exact shiftEvent_plain hkept hshift.symm

variable {tracks : List Bytes}

theorem startVoices_loop {first : Nat} (h : ∀ track ∈ tracks, 36 ∉ track) :
    startVoices F exception true fuel first tracks =
      startVoices F exception false fuel first tracks := by
  induction tracks generalizing first with
  | nil => rfl
  | cons track tracks ih =>
    unfold startVoices
    rw [ih fun other hother => h other (List.mem_cons_of_mem _ hother)]
    cases hparser : newParser F exception first track with
    | error x => rfl
    | ok parser =>
      have hplain := new_plain (h track List.mem_cons_self) (newParser_ok.mp hparser)
      change (parser.reduceNext F true fuel >>= _) = (parser.reduceNext F false fuel >>= _)
      rw [reduceNext_loop hplain]

theorem startVoices_plain {voices : List (Voice Mml Event)} (h : ∀ track ∈ tracks, 36 ∉ track)
    (hvoices : startVoices F exception false fuel 0 tracks = .ok voices) :
    VoicesKept Mml.Plain (fun e : Event => e.command ≠ .segno) voices := by
  intro v hv
  obtain ⟨k, track, hk, hstarted⟩ := startVoices_started hvoices v hv
  obtain ⟨parser, hnew, hnext⟩ := hstarted.parser
  exact reduceNext_keeps_plain.more _ _ _ (new_plain (h track (List.mem_of_getElem? hk)) hnew) hnext

/-- Without a segno it is the same with a loop and without. -/
theorem compileMulti_loop (h : ∀ track ∈ tracks, 36 ∉ track) :
    compileMulti F exception true fuel steps tracks =
      compileMulti F exception false fuel steps tracks := by
  unfold compileMulti
  rw [startVoices_loop h]
  cases hvoices : startVoices F exception false fuel 0 tracks with
  | error x => rfl
  | ok voices =>
    dsimp only
    rw [merge_congr reduceNext_keeps_plain (startVoices_plain h hvoices) fun m hm => reduceNext_loop hm]

theorem compileMulti_plain (h : ∀ track ∈ tracks, 36 ∉ track) :
    ∀ y ∈ (compileMulti F exception false fuel steps tracks).1, y.command ≠ .segno := by
  intro y hy
  obtain ⟨-, voices, hvoices, x, hx, rfl⟩ := compileMulti_mem hy
  exact ((merge_keeps reduceNext_keeps_plain (startVoices_plain h hvoices)).1 x hx).1

end Plain

/-- One to three tracks are merged, when all of them have their events, but for the rates. -/
theorem merges_tracks (F : Type) [MmlFloat F] (exception : Bool) (tracks : List Bytes)
    (hne : tracks ≠ []) (hlen : tracks.length ≤ 3) : ∃ enough, ∀ fuel steps,
      enough ≤ fuel → enough ≤ steps →
        (∀ eventsOf, TracksEvents F exception fuel tracks eventsOf → ∃ time,
          (compileMulti F exception false fuel steps tracks).2 = .returned time ∧
            (MergesTracks tracks.length eventsOf
                (compileMulti F exception false fuel steps tracks).1 time ↔
              ∀ k < tracks.length, ∀ e ∈ eventsOf k, e.command = .lfo → e.arg1 = 0)) ∧
        ((¬ ∃ eventsOf, TracksEvents F exception fuel tracks eventsOf) →
          ∃ e, (compileMulti F exception false fuel steps tracks).2 = .raised (.raised e)) := by
  obtain ⟨bound, hbound⟩ := exists_fits tracks
  refine ⟨tracks.length * (3 * bound) + bound + 1, ?_⟩
  intro fuel steps hfuel hsteps
  have hle : bound ≤ fuel := by omega
  have hmeasure {voices : List (Voice Mml Event)}
      (h : startVoices F exception false fuel 0 tracks = .ok voices) :
      measureSum Mml.potential voices < steps := by
    have hsum := voices_measure hbound hle h
    omega
  refine ⟨?_, ?_⟩
  · intro eventsOf hevents
    obtain ⟨voices, hvoices⟩ := startVoices_of_events hevents
    exact compileMulti_returns hne hlen (hbound.mono hle) (hmeasure hvoices) hvoices hevents
  · intro hnone
    cases hvoices : startVoices F exception false fuel 0 tracks with
    | ok voices =>
      exact compileMulti_raises hne hlen (hbound.mono hle) (hmeasure hvoices) hvoices hnone
    | error x =>
      rw [compileMulti_of_error hne hlen hvoices]
      cases x with
      | raised e => exact ⟨e, rfl⟩
      | endless => exact absurd rfl (startVoices_errors (hbound.mono hle) _ hvoices)

theorem merges_tracks_note : ∃ enough, ∀ fuel steps, enough ≤ fuel → enough ≤ steps →
    (∀ eventsOf, TracksEvents Rat true fuel [[97]] eventsOf → ∃ time,
      (compileMulti Rat true false fuel steps [[97]]).2 = .returned time ∧
        (MergesTracks 1 eventsOf (compileMulti Rat true false fuel steps [[97]]).1 time ↔
          ∀ k < 1, ∀ e ∈ eventsOf k, e.command = .lfo → e.arg1 = 0)) ∧
    ((¬ ∃ eventsOf, TracksEvents Rat true fuel [[97]] eventsOf) →
      ∃ e, (compileMulti Rat true false fuel steps [[97]]).2 = .raised (.raised e)) :=
  merges_tracks Rat true [[97]] (List.cons_ne_nil _ _) (by decide)

/-- The track `j1,5`: its LFO has a rate, and none is yielded. -/
theorem rate_missed :
    TracksEvents Rat true 10 [[106, 49, 44, 53]] (fun _ => [⟨.lfo, 100, 5⟩, ⟨.mute, 1, 0⟩]) ∧
      (compileMulti Rat true false 10 10 [[106, 49, 44, 53]]).2 = .returned 0 ∧
      ¬ MergesTracks 1 (fun _ => [⟨.lfo, 100, 5⟩, ⟨.mute, 1, 0⟩])
        (compileMulti Rat true false 10 10 [[106, 49, 44, 53]]).1 0 := by
  refine ⟨?_, by decide +kernel, ?_⟩
  · intro k track hk
    cases k with
    | zero =>
      rw [← Option.some.inj hk]
      exact trackEvents_of_produced (n := 10) (by decide +kernel)
    | succ k => cases hk
  · intro h
    have hlost := h.tracks 0 Nat.one_pos
    revert hlost
    decide +kernel

end PicoRuby.Psg
