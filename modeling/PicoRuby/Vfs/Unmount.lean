import Mathlib.Data.List.Count
import Mathlib.Logic.Function.Basic
import PicoRuby.Vfs.Volumes

/-!
# Mounting and unmounting

`VFS.mount` and `VFS.unmount` on String objects. A driver, the table and `ENV["PWD"]` may refer to one String, and
`VFS.unmount` puts a slash behind that of the driver before it has looked at anything.
-/

namespace PicoRuby.Vfs

set_option autoImplicit false

/-- An entry of `VOLUMES`, whose mountpoint is a String object. -/
structure Entry (D : Type) where
  driver : D
  mountpoint : Nat
deriving DecidableEq, Repr

/-- The String objects, the `@mountpoint` of each driver, `VOLUMES` and `ENV["PWD"]`. -/
structure Mounts (D : Type) where
  strings : Nat → Text
  next : Nat
  mountpoints : D → Option Nat
  volumes : List (Entry D)
  pwd : Option Nat

/-- A mountpoint with its slash. -/
def slashedEnd (t : Text) : Text := if t.getLast? = some '/' then t else t ++ ['/']

namespace Mounts
variable {D : Type}

/-- `VOLUMES` as it reads. -/
def table (s : Mounts D) : List (Volume D) := s.volumes.map fun v => ⟨v.driver, s.strings v.mountpoint⟩

def cwd (s : Mounts D) : Option Text := s.pwd.map s.strings

def setPwd (s : Mounts D) (t : Text) : Mounts D :=
  { s with strings := Function.update s.strings s.next t, next := s.next + 1, pwd := some s.next }

/-- `mountpoint << "/" unless mountpoint.end_with?("/")`. -/
def withSlash (s : Mounts D) (ref : Nat) : Mounts D :=
  { s with strings := Function.update s.strings ref (slashedEnd (s.strings ref)) }

def index (s : Mounts D) (ref : Nat) : Option Nat := volumeIndex s.table (s.strings ref)

/-- `VFS.mount` with a driver that takes the mountpoint before it may raise. -/
def mount [DecidableEq D] (driverMount : D → Text → Option Failure) (driver : D) (ref : Nat) (s : Mounts D) :
    Option Failure × Mounts D :=
  let mountpoint := s.strings ref
  if (s.index ref).isSome then
    (some ⟨.runtimeError, s!"Mountpoint `{String.ofList mountpoint}` already exists"⟩, s)
  else if mountpoint.head? ≠ some '/' then
    (some ⟨.argumentError, "Mountpoint must start with `/`"⟩, s)
  else
    let taken := { s with mountpoints := Function.update s.mountpoints driver (some ref) }
    match driverMount driver mountpoint with
    | some e => (some e, taken)
    | none => (none, { taken with
        volumes := s.volumes ++ [⟨driver, ref⟩]
        pwd := if s.cwd = some [] then some ref else s.pwd })

/-- `VFS.unmount`; `driverUnmount` is what `driver.unmount` raises. -/
def unmount (driverUnmount : D → Option Failure) (driver : D) (force : Bool) (s : Mounts D) :
    Option Failure × Mounts D :=
  match s.mountpoints driver with
  | none => (some ⟨.noMethodError, "undefined method 'end_with?'"⟩, s)
  | some ref =>
    let s := s.withSlash ref
    let mountpoint := s.strings ref
    match s.index ref with
    | none => (some ⟨.runtimeError, s!"Mountpoint `{String.ofList mountpoint}` doesn't exist"⟩, s)
    | some index =>
      if force = false ∧ ∃ pwd ∈ s.cwd, mountpoint <+: pwd then
        (some ⟨.runtimeError, "Can't unmount where you are"⟩, s)
      else
        match driverUnmount driver with
        | some e => (some e, s)
        | none =>
          let s := { s with volumes := s.volumes.eraseIdx index }
          (none, if s.volumes.isEmpty then s.setPwd [] else s)

/-- What is read of the table and of `ENV["PWD"]` is what `VFS.mount` of texts comes to. -/
theorem mount_table [DecidableEq D] (driverMount : D → Text → Option Failure) (driver : D) (ref : Nat) (s : Mounts D)
    (home oldpwd : Option Text) :
    Vfs.mount driverMount driver (s.strings ref) s.table ⟨s.cwd, home, oldpwd⟩ =
      match s.mount driverMount driver ref with
      | (some e, _) => .error e
      | (none, s') => .ok (s'.table, ⟨s'.cwd, home, oldpwd⟩) := by
  unfold Mounts.mount Vfs.mount index
  dsimp only
  by_cases hindex : (volumeIndex s.table (s.strings ref)).isSome = true
  · rw [if_pos hindex, if_pos hindex]
  · rw [if_neg hindex, if_neg hindex]
    by_cases hslash : (s.strings ref).head? ≠ some '/'
    · rw [if_pos hslash, if_pos hslash]
    · rw [if_neg hslash, if_neg hslash]
      cases driverMount driver (s.strings ref) with
      | some e => rfl
      | none =>
        by_cases hempty : s.cwd = some []
        · dsimp only
          rw [if_pos hempty, if_pos hempty, table, table, cwd, List.map_append]
          rfl
        · dsimp only
          rw [if_neg hempty, if_neg hempty, table, table, cwd, List.map_append]
          rfl

/-! ## What is claimed -/

/-- The current directory is the mountpoint or below it. -/
def Inside (s : Mounts D) (v : Entry D) : Prop :=
  ∃ pwd ∈ s.cwd, pwd = s.strings v.mountpoint ∨ slashedEnd (s.strings v.mountpoint) <+: pwd

/-- The table, each mountpoint and each lookup are the same. -/
structure Same (s s' : Mounts D) : Prop where
  volumes : s'.volumes = s.volumes
  table : s'.table = s.table
  mountpoints : ∀ driver, (s'.mountpoints driver).map s'.strings = (s.mountpoints driver).map s.strings
  split : ∀ path, split s'.table path = split s.table path

/-- The volume is removed and the others read as before. -/
structure Removed [DecidableEq D] (s s' : Mounts D) (v : Entry D) : Prop where
  volumes : s'.volumes = s.volumes.erase v
  strings : ∀ w ∈ s.volumes.erase v, s'.strings w.mountpoint = s.strings w.mountpoint

/-- What is refused changes nothing, and a volume without the current directory is removed. -/
structure Atomic [DecidableEq D] (driverUnmount : D → Option Failure) (driver : D) (s : Mounts D) : Prop where
  refused : ∀ e, (s.unmount driverUnmount driver false).1 = some e → s.Same (s.unmount driverUnmount driver false).2
  removed : ∀ v ∈ s.volumes, v.driver = driver → ¬ s.Inside v → driverUnmount driver = none →
    (s.unmount driverUnmount driver false).1 = none ∧ s.Removed (s.unmount driverUnmount driver false).2 v

/-- The first volume that reads as the String. -/
def first (s : Mounts D) (ref : Nat) : Option (Entry D) :=
  s.volumes.find? fun v => s.strings v.mountpoint = s.strings ref

/-- No volume reads as the mountpoint with its slash, the current directory begins with it, or the driver refuses. -/
def Refused (driverUnmount : D → Option Failure) (driver : D) (ref : Nat) (s : Mounts D) : Prop :=
  (s.withSlash ref).first ref = none ∨
    (∃ pwd ∈ (s.withSlash ref).cwd, slashedEnd (s.strings ref) <+: pwd) ∨ driverUnmount driver ≠ none

/-- Where it is refused, the mountpoint ends with its slash; else each volume of the driver is the first with the
slashed mountpoint and shares its String with no other. -/
structure Clean [DecidableEq D] (driverUnmount : D → Option Failure) (driver : D) (s : Mounts D) : Prop where
  slashed : ∀ ref, s.mountpoints driver = some ref → s.Refused driverUnmount driver ref →
    (s.strings ref).getLast? = some '/'
  own : ∀ v ∈ s.volumes, v.driver = driver → ¬ s.Inside v → driverUnmount driver = none →
    ∃ ref, s.mountpoints driver = some ref ∧ ¬ s.Refused driverUnmount driver ref ∧
      (s.withSlash ref).first ref = some v ∧
      ∀ w ∈ s.volumes.erase v, w.mountpoint = ref → (s.strings ref).getLast? = some '/'

/-! ## The three ways out -/

section Outcome
variable {s : Mounts D} {driver : D} {ref : Nat} {driverUnmount : D → Option Failure}

/-- The entries that read as the String. -/
def reads (s : Mounts D) (ref : Nat) (v : Entry D) : Bool := s.strings v.mountpoint = s.strings ref

theorem index_eq (s : Mounts D) (ref : Nat) : s.index ref = s.volumes.findIdx? (s.reads ref) := by
  unfold index volumeIndex table
  rw [List.findIdx?_map]
  rfl

theorem first_eq (s : Mounts D) (ref : Nat) : s.first ref = s.volumes.find? (s.reads ref) := rfl

theorem index_none_iff : s.index ref = none ↔ s.first ref = none := by
  rw [index_eq, first_eq, List.findIdx?_eq_none_iff, List.find?_eq_none]
  simp

theorem eraseIdx_index {i : Nat} (h : s.index ref = some i) :
    s.volumes.eraseIdx i = s.volumes.eraseP (s.reads ref) := by
  rw [index_eq] at h
  rw [List.eraseP_eq_eraseIdx, h]

theorem withSlash_self (s : Mounts D) (ref : Nat) :
    (s.withSlash ref).strings ref = slashedEnd (s.strings ref) := Function.update_self ..

theorem withSlash_of_ne {other : Nat} (h : other ≠ ref) : (s.withSlash ref).strings other = s.strings other :=
  Function.update_of_ne h ..

theorem slashedEnd_of_slash {t : Text} (h : t.getLast? = some '/') : slashedEnd t = t := if_pos h

theorem withSlash_of_slash (h : (s.strings ref).getLast? = some '/') : s.withSlash ref = s := by
  unfold withSlash
  rw [slashedEnd_of_slash h, Function.update_eq_self]

theorem slashedEnd_ne {t : Text} (h : t.getLast? ≠ some '/') : slashedEnd t ≠ t := by
  rw [slashedEnd, if_neg h]
  simp

theorem Same.refl (s : Mounts D) : s.Same s := ⟨rfl, rfl, fun _ => rfl, fun _ => rfl⟩

theorem unmount_unknown (h : s.mountpoints driver = none) :
    s.unmount driverUnmount driver false = (some ⟨.noMethodError, "undefined method 'end_with?'"⟩, s) := by
  rw [unmount, h]

theorem unmount_refused (h : s.mountpoints driver = some ref) (hrefused : s.Refused driverUnmount driver ref) :
    ∃ e, s.unmount driverUnmount driver false = (some e, s.withSlash ref) := by
  unfold unmount
  rw [h]
  dsimp only
  cases hindex : (s.withSlash ref).index ref with
  | none => exact ⟨_, rfl⟩
  | some i =>
    dsimp only
    rw [withSlash_self]
    split
    · exact ⟨_, rfl⟩
    · rename_i hcwd
      rcases hrefused with hnone | hhere | hdriver
      · rw [← index_none_iff, hindex] at hnone
        cases hnone
      · exact absurd ⟨rfl, hhere⟩ hcwd
      · obtain ⟨e, he⟩ := Option.ne_none_iff_exists'.mp hdriver
        rw [he]
        exact ⟨e, rfl⟩

theorem unmount_agreed (h : s.mountpoints driver = some ref) (hagreed : ¬ s.Refused driverUnmount driver ref) :
    (s.unmount driverUnmount driver false).1 = none ∧
    (s.unmount driverUnmount driver false).2.volumes = s.volumes.eraseP ((s.withSlash ref).reads ref) ∧
    ∀ w ∈ (s.unmount driverUnmount driver false).2.volumes,
      (s.unmount driverUnmount driver false).2.strings w.mountpoint = (s.withSlash ref).strings w.mountpoint := by
  rw [Refused, not_or, not_or, not_not] at hagreed
  obtain ⟨hfirst, hcwd, hdriver⟩ := hagreed
  rw [← index_none_iff] at hfirst
  obtain ⟨i, hindex⟩ := Option.ne_none_iff_exists'.mp hfirst
  have herase : s.volumes.eraseIdx i = s.volumes.eraseP ((s.withSlash ref).reads ref) := eraseIdx_index hindex
  have hhere : ¬ (false = false ∧ ∃ pwd ∈ (s.withSlash ref).cwd, (s.withSlash ref).strings ref <+: pwd) := by
    rw [withSlash_self]
    exact fun h => hcwd h.2
  unfold unmount
  rw [h]
  dsimp only
  rw [hindex]
  dsimp only
  rw [if_neg hhere, hdriver]
  dsimp only
  rw [← herase]
  split
  · rename_i hempty
    rw [List.isEmpty_iff] at hempty
    refine ⟨rfl, rfl, ?_⟩
    intro w hw
    have hnil : s.volumes.eraseIdx i = [] := hempty
    have hin : w ∈ s.volumes.eraseIdx i := hw
    rw [hnil] at hin
    cases hin
  · exact ⟨rfl, rfl, fun _ _ => rfl⟩

end Outcome

/-! ## When nothing is lost -/

section Iff
variable [DecidableEq D] {s : Mounts D} {driver : D} {ref : Nat} {driverUnmount : D → Option Failure}

theorem eraseP_eq_erase {p : Entry D → Bool} {l : List (Entry D)} {v : Entry D} (h : l.find? p = some v) :
    l.eraseP p = l.erase v := by
  induction l with
  | nil => cases h
  | cons a l ih =>
    by_cases hp : p a
    · rw [List.find?_cons_of_pos hp, Option.some.injEq] at h
      rw [List.eraseP_cons_of_pos hp, h, List.erase_cons_head]
    · rw [List.find?_cons_of_neg hp] at h
      have hne : ¬ (a == v) = true := by
        intro heq
        rw [beq_iff_eq] at heq
        exact hp (heq ▸ List.find?_some h)
      rw [List.eraseP_cons_of_neg hp, List.erase_cons_tail hne, ih h]

/-- One entry is removed, and so it is `v`. -/
theorem first_of_erase {v : Entry D} (hmem : v ∈ s.volumes) (hsome : s.first ref ≠ none)
    (h : s.volumes.eraseP (s.reads ref) = s.volumes.erase v) : s.first ref = some v := by
  obtain ⟨w, hw⟩ := Option.ne_none_iff_exists'.mp hsome
  rw [hw, Option.some.injEq]
  by_contra hne
  have herase : s.volumes.eraseP (s.reads ref) = s.volumes.erase w := eraseP_eq_erase hw
  have hcount := congrArg (List.count v) h
  rw [herase, List.count_erase_of_ne (Ne.symm hne), List.count_erase_self] at hcount
  have hpos := List.count_pos_iff.mpr hmem
  omega

theorem Removed.of_withSlash {s' : Mounts D} {v : Entry D} (hvolumes : s'.volumes = s.volumes.erase v)
    (hstrings : ∀ w ∈ s'.volumes, s'.strings w.mountpoint = (s.withSlash ref).strings w.mountpoint)
    (hapart : ∀ w ∈ s.volumes.erase v, w.mountpoint = ref → (s.strings ref).getLast? = some '/') :
    s.Removed s' v := by
  refine ⟨hvolumes, ?_⟩
  intro w hw
  rw [hstrings w (hvolumes ▸ hw)]
  by_cases href : w.mountpoint = ref
  · rw [withSlash_of_slash (hapart w hw href)]
  · exact withSlash_of_ne href

/-- **An unmount is atomic** exactly when the mountpoint of a driver that is refused has its slash already, and the
volume of another is the first with its mountpoint and has a String of its own. -/
theorem atomic_iff (driverUnmount : D → Option Failure) (driver : D) (s : Mounts D) :
    s.Atomic driverUnmount driver ↔ s.Clean driverUnmount driver := by
  constructor
  · intro h
    refine ⟨?_, ?_⟩
    · intro ref href hrefused
      obtain ⟨e, he⟩ := unmount_refused href hrefused
      have hsame := h.refused e (congrArg Prod.fst he)
      rw [he] at hsame
      have hmountpoint := hsame.mountpoints driver
      have hkept : (s.withSlash ref).mountpoints driver = some ref := href
      rw [hkept, href, Option.map_some, Option.map_some, Option.some.injEq, withSlash_self] at hmountpoint
      by_contra hslash
      exact slashedEnd_ne hslash hmountpoint
    · intro v hv hdriver haway hagrees
      obtain ⟨hok, hremoved⟩ := h.removed v hv hdriver haway hagrees
      cases href : s.mountpoints driver with
      | none =>
        rw [unmount_unknown href] at hok
        cases hok
      | some ref =>
        have hagreed : ¬ s.Refused driverUnmount driver ref := by
          intro hrefused
          obtain ⟨e, he⟩ := unmount_refused href hrefused
          rw [he] at hok
          cases hok
        obtain ⟨-, hvolumes, hstrings⟩ := unmount_agreed href hagreed
        have hsome : (s.withSlash ref).first ref ≠ none := fun hnone => hagreed (.inl hnone)
        have herase : s.volumes.eraseP ((s.withSlash ref).reads ref) = s.volumes.erase v :=
          hvolumes.symm.trans hremoved.volumes
        refine ⟨ref, rfl, hagreed, first_of_erase hv hsome herase, ?_⟩
        intro w hw hshared
        have hread := hstrings w (hremoved.volumes ▸ hw)
        rw [hremoved.strings w hw, hshared, withSlash_self] at hread
        by_contra hslash
        exact slashedEnd_ne hslash hread.symm
  · intro h
    refine ⟨?_, ?_⟩
    · intro e he
      cases href : s.mountpoints driver with
      | none =>
        rw [unmount_unknown href]
        exact Same.refl s
      | some ref =>
        by_cases hrefused : s.Refused driverUnmount driver ref
        · obtain ⟨e', he'⟩ := unmount_refused href hrefused
          rw [he', withSlash_of_slash (h.slashed ref href hrefused)]
          exact Same.refl s
        · rw [(unmount_agreed href hrefused).1] at he
          cases he
    · intro v hv hdriver haway hagrees
      obtain ⟨ref, href, hagreed, hfirst, hapart⟩ := h.own v hv hdriver haway hagrees
      obtain ⟨hok, hvolumes, hstrings⟩ := unmount_agreed href hagreed
      have herase : s.volumes.eraseP ((s.withSlash ref).reads ref) = s.volumes.erase v := eraseP_eq_erase hfirst
      exact ⟨hok, Removed.of_withSlash (hvolumes.trans herase) hstrings hapart⟩

end Iff

/-- A card that is mounted at `/sd`, the current directory being `/sd/x`. -/
def card : Mounts String :=
  (mount (fun _ _ => none) "sd" 0
    ⟨fun ref => if ref = 0 then "/sd".toList else "/sd/x".toList, 2, fun _ => none, [], some 1⟩).2

/-- The unmount that is refused has put a slash behind the mountpoint, and the path of a file is no longer the one
the driver knows. -/
theorem card_slashed : (card.unmount (fun _ => none) "sd" false).1 =
      some ⟨.runtimeError, "Can't unmount where you are"⟩ ∧
    (split card.table "/sd/x".toList).2 = "/x".toList ∧
    (split (card.unmount (fun _ => none) "sd" false).2.table "/sd/x".toList).2 = "/".toList ∧
    ¬ card.Atomic (fun _ => none) "sd" := by
  have hrefused : (card.unmount (fun _ => none) "sd" false).1 =
      some ⟨.runtimeError, "Can't unmount where you are"⟩ := by decide
  have hbefore : (split card.table "/sd/x".toList).2 = "/x".toList := by decide
  have hafter : (split (card.unmount (fun _ => none) "sd" false).2.table "/sd/x".toList).2 = "/".toList := by decide
  refine ⟨hrefused, hbefore, hafter, ?_⟩
  intro h
  have hsplit := congrArg Prod.snd ((h.refused _ hrefused).split "/sd/x".toList)
  rw [hafter, hbefore] at hsplit
  exact absurd hsplit (by decide)

end Mounts

end PicoRuby.Vfs
