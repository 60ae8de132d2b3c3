import PicoRuby.Shared.Runs
import PicoRuby.Sqlite.Methods

/-!
# The storage contract

A file is its bytes. The driver is assumed to keep an ordinary byte file with a position; the contract says what
SQLite expects of the calls, by offset.
-/

namespace PicoRuby.Sqlite

open Shared

set_option autoImplicit false

/-! ## Byte files -/

/-- `data` stands at `offset`, and what was between the end and `offset` is unspecified. -/
def Overwritten (old : Bytes) (offset : Nat) (data new : Bytes) : Prop :=
  if data = [] then new = old
  else ∃ gap : Bytes, gap.length = offset - old.length ∧
    new = (old ++ gap).take offset ++ data ++ old.drop (offset + data.length)

/-- An open file of the driver. -/
structure OpenFile where
  content : Bytes
  pos : Nat
  writable : Bool
deriving DecidableEq

def OpenFile.piece (file : OpenFile) (n : Nat) : Bytes := (file.content.drop file.pos).take n

/-- **The driver keeps ordinary byte files.** `files` are those on the volume, and `view` is what a file object stands
for. A file that was opened for reading takes no bytes; a table of FAT has no `file_stat`. -/
structure Ordinary {F : Type} (m : VfsMethods F) (files : String → Option Bytes) (view : F → OpenFile) : Prop where
  exist : ∀ path, m.fileExist path = if (files path).isSome then .true else .false
  stat : m.fileStat = none
  new_r : ∀ {path content file}, files path = some content → m.fileNew path .r = some file →
    view file = ⟨content, 0, false⟩
  new_rPlus : ∀ {path content file}, files path = some content → m.fileNew path .rPlus = some file →
    view file = ⟨content, 0, true⟩
  new_wPlus : ∀ {path file}, m.fileNew path .wPlus = some file → view file = ⟨[], 0, true⟩
  seek : ∀ file (pos : Nat), ∃ file', m.fileSeek file pos = (.integer 0, file') ∧
    view file' = { view file with pos := pos }
  read : ∀ file n, ∃ file', m.fileRead file n =
      (if (view file).piece n = [] then .nil else .string ((view file).piece n), file') ∧
    view file' = { view file with pos := (view file).pos + ((view file).piece n).length }
  write : ∀ file data, (view file).writable = true → ∃ file' content,
    m.fileWrite file data = (.integer data.length, file') ∧
    Overwritten (view file).content (view file).pos data content ∧
    view file' = ⟨content, (view file).pos + data.length, true⟩
  write_readOnly : ∀ file data, (view file).writable = false → ∃ file', m.fileWrite file data = (.integer 0, file') ∧
    view file' = view file
  size : ∀ file, m.fileSize file = .integer (view file).content.length

/-! ## The contract -/

/-- Lengths and offsets are below 2^31. -/
def Call.Bounded : Call → Prop
  | .read zBuf iOfst => zBuf.length < 2 ^ 31 ∧ iOfst < 2 ^ 31
  | .write zBuf iOfst => zBuf.length < 2 ^ 31 ∧ iOfst < 2 ^ 31
  | .truncate size => size < 2 ^ 31
  | .fileSize => True

/-- What a call gives, and what it leaves of the file `old`. -/
def Contract (old : Bytes) : Call → Reply → Bytes → Prop
  | .read zBuf iOfst, reply, new =>
    let available := (old.drop iOfst).take zBuf.length
    new = old ∧ reply = if available.length = zBuf.length then .read .ok available
      else .read .ioErrShortRead (available ++ List.replicate (zBuf.length - available.length) 0)
  | .write zBuf iOfst, reply, new => reply = .write .ok ∧ Overwritten old iOfst zBuf new
  | .truncate size, reply, new => reply = .truncate .ok ∧
    if size ≤ old.length then new = old.take size else old <+: new
  | .fileSize, reply, new => reply = .fileSize .ok (some old.length) ∧ new = old

/-- The calls that prb_vfs answers as the contract says: a read that is not short or whose buffer ends in zeros
already, a write to a file that was opened with `SQLITE_OPEN_CREATE`, a truncation to no less than the size. -/
def Call.Honoured (create : Bool) (content : Bytes) : Call → Prop
  | .read zBuf iOfst => ∀ b ∈ zBuf.drop (content.length - iOfst), b = 0
  | .write zBuf _ => create = true ∨ zBuf = []
  | .truncate size => content.length ≤ size
  | .fileSize => True

variable {F : Type} {m : VfsMethods F} {files : String → Option Bytes} {view : F → OpenFile} {file : F}

/-! ## One call -/

theorem bmod_of_lt {n : Nat} (h : n < 2 ^ 31) : (n : Int).bmod (2 ^ 32) = n :=
  Int.bmod_eq_of_le (by omega) (by omega)

theorem prbFileSeek_eq (h : Ordinary m files view) (file : F) {offset : Nat} (hlt : offset < 2 ^ 31) :
    ∃ file', prbFileSeek m file offset = (0, file') ∧ view file' = { view file with pos := offset } := by
  obtain ⟨file', hseek, hview⟩ := h.seek file offset
  refine ⟨file', ?_, hview⟩
  unfold prbFileSeek
  rw [bmod_of_lt hlt, hseek]

theorem prbFileRead_eq (h : Ordinary m files view) (file : F) (zBuf : Bytes) :
    ∃ file', prbFileRead m file zBuf zBuf.length = ((((view file).piece zBuf.length).length : Int),
        (view file).piece zBuf.length ++ zBuf.drop ((view file).piece zBuf.length).length, file') ∧
      view file' = { view file with pos := (view file).pos + ((view file).piece zBuf.length).length } := by
  obtain ⟨file', hread, hview⟩ := h.read file zBuf.length
  refine ⟨file', ?_, hview⟩
  unfold prbFileRead
  rw [hread]
  by_cases hempty : (view file).piece zBuf.length = []
  · rw [if_pos hempty, hempty]
    rfl
  · rw [if_neg hempty]

theorem prbIORead_eq (h : Ordinary m files view) (file : F) (zBuf : Bytes) {iOfst : Nat} (hlt : iOfst < 2 ^ 31) :
    ∃ file', prbIORead m file zBuf iOfst =
        (if ((view file).content.drop iOfst |>.take zBuf.length).length = zBuf.length then .ok else .ioErrShortRead,
          ((view file).content.drop iOfst).take zBuf.length ++
            zBuf.drop (((view file).content.drop iOfst).take zBuf.length).length, file') ∧
      (view file').content = (view file).content ∧ (view file').writable = (view file).writable := by
  obtain ⟨file₁, hseek, hview₁⟩ := prbFileSeek_eq h file hlt
  obtain ⟨file₂, hread, hview₂⟩ := prbFileRead_eq h file₁ zBuf
  have hpiece : (view file₁).piece zBuf.length = ((view file).content.drop iOfst).take zBuf.length := by
    rw [OpenFile.piece, hview₁]
  rw [hpiece] at hread
  refine ⟨file₂, ?_, ?_, ?_⟩
  · unfold prbIORead
    rw [hseek]
    dsimp only
    rw [if_neg (by decide), hread]
    simp only [beq_iff_eq, Int.natCast_inj]
    by_cases hfull : (((view file).content.drop iOfst).take zBuf.length).length = zBuf.length
    · rw [if_pos hfull, if_pos hfull.symm]
    · rw [if_neg hfull, if_neg (Ne.symm hfull)]
  · rw [hview₂, hview₁]
  · rw [hview₂, hview₁]

theorem prbIOWrite_eq (h : Ordinary m files view) (hwritable : (view file).writable = true) (data : Bytes) {iOfst : Nat}
    (hlt : iOfst < 2 ^ 31) : ∃ file', prbIOWrite m file data iOfst = (.ok, file') ∧
      Overwritten (view file).content iOfst data (view file').content ∧ (view file').writable = true := by
  obtain ⟨file₁, hseek, hview₁⟩ := prbFileSeek_eq h file hlt
  obtain ⟨file₂, content, hwrite, hdata, hview₂⟩ := h.write file₁ data (by rw [hview₁]; exact hwritable)
  refine ⟨file₂, ?_, ?_, ?_⟩
  · unfold prbIOWrite
    rw [hseek]
    dsimp only
    unfold prbFileWrite
    rw [if_neg (by decide), hwrite]
    simp only [beq_self_eq_true, if_true]
  · rw [hview₁] at hdata
    rw [hview₂]
    exact hdata
  · rw [hview₂]

theorem prbIOWrite_readOnly (h : Ordinary m files view) (hwritable : (view file).writable = false) (data : Bytes)
    {iOfst : Nat} (hlt : iOfst < 2 ^ 31) : ∃ file',
      prbIOWrite m file data iOfst = (if data = [] then .ok else .ioErrWrite, file') ∧
      (view file').content = (view file).content ∧ (view file').writable = false := by
  obtain ⟨file₁, hseek, hview₁⟩ := prbFileSeek_eq h file hlt
  obtain ⟨file₂, hwrite, hview₂⟩ := h.write_readOnly file₁ data (by rw [hview₁]; exact hwritable)
  refine ⟨file₂, ?_, ?_, ?_⟩
  · unfold prbIOWrite
    rw [hseek]
    dsimp only
    unfold prbFileWrite
    rw [if_neg (by decide), hwrite]
    simp only [beq_iff_eq, Int.natCast_eq_zero, List.length_eq_zero_iff]
  · rw [hview₂, hview₁]
  · rw [hview₂, hview₁]
    exact hwritable

theorem read_contract_iff {content : Bytes} {zBuf : Bytes} {iOfst : Nat} :
    Contract content (.read zBuf iOfst)
        (.read (if ((content.drop iOfst).take zBuf.length).length = zBuf.length then .ok else .ioErrShortRead)
          ((content.drop iOfst).take zBuf.length ++ zBuf.drop ((content.drop iOfst).take zBuf.length).length)) content ↔
      ∀ b ∈ zBuf.drop (content.length - iOfst), b = 0 := by
  have hlength : ((content.drop iOfst).take zBuf.length).length = min zBuf.length (content.length - iOfst) := by
    rw [List.length_take, List.length_drop]
  unfold Contract
  dsimp only
  by_cases hall : zBuf.length ≤ content.length - iOfst
  · rw [Nat.min_eq_left hall] at hlength
    rw [if_pos hlength, if_pos hlength, hlength, List.drop_length, List.append_nil, List.drop_of_length_le hall]
    simp
  · have hshort : content.length - iOfst ≤ zBuf.length := by omega
    rw [Nat.min_eq_right hshort] at hlength
    rw [if_neg (by omega), if_neg (by omega), hlength]
    constructor
    · intro h
      have htail := List.append_cancel_left (Reply.read.inj h.2).2
      rw [htail]
      exact fun b hb => List.eq_of_mem_replicate hb
    · intro h
      have htail : zBuf.drop (content.length - iOfst) = List.replicate (zBuf.length - (content.length - iOfst)) 0 :=
        List.eq_replicate_iff.mpr ⟨List.length_drop, h⟩
      exact ⟨rfl, by rw [htail]⟩

/-- One call meets the contract exactly when it is one that prb_vfs honours. -/
theorem perform_contract_iff (h : Ordinary m files view) (file : F) {call : Call} (hbounded : call.Bounded) :
    (Contract (view file).content call (perform m file call).1 (view (perform m file call).2).content ↔
      call.Honoured (view file).writable (view file).content) ∧
    (view (perform m file call).2).writable = (view file).writable := by
  cases call with
  | read zBuf iOfst =>
    obtain ⟨file', hread, hcontent, hwritable⟩ := prbIORead_eq h file zBuf hbounded.2
    unfold perform
    dsimp only
    rw [hread]
    dsimp only
    rw [hcontent]
    exact ⟨read_contract_iff, hwritable⟩
  | write zBuf iOfst =>
    unfold perform Call.Honoured Contract
    dsimp only
    cases hmode : (view file).writable with
    | true =>
      obtain ⟨file', hwrite, hdata, hwritable⟩ := prbIOWrite_eq h hmode zBuf hbounded.2
      rw [hwrite]
      exact ⟨⟨fun _ => Or.inl rfl, fun _ => ⟨rfl, hdata⟩⟩, hwritable⟩
    | false =>
      obtain ⟨file', hwrite, hcontent, hwritable⟩ := prbIOWrite_readOnly h hmode zBuf hbounded.2
      rw [hwrite]
      dsimp only
      rw [hcontent]
      refine ⟨?_, hwritable⟩
      by_cases hempty : zBuf = []
      · rw [if_pos hempty]
        unfold Overwritten
        rw [if_pos hempty]
        exact ⟨fun _ => Or.inr hempty, fun _ => ⟨rfl, rfl⟩⟩
      · rw [if_neg hempty]
        constructor
        · rintro ⟨hreply, -⟩
          cases hreply
        · rintro (hfalse | hnil)
          · cases hfalse
          · exact absurd hnil hempty
  | truncate size =>
    refine ⟨?_, rfl⟩
    unfold perform prbIOTruncate Call.Honoured Contract
    dsimp only
    split
    · rename_i hle
      constructor
      · rintro ⟨-, heq⟩
        have hlength := congrArg List.length heq
        rw [List.length_take] at hlength
        omega
      · exact fun hge => ⟨rfl, (List.take_of_length_le hge).symm⟩
    · rename_i hgt
      exact ⟨fun _ => by omega, fun _ => ⟨rfl, List.prefix_rfl⟩⟩
  | fileSize =>
    refine ⟨?_, ?_⟩
    · unfold perform prbIOFileSize Call.Honoured Contract
      rw [h.size]
      exact ⟨fun _ => trivial, fun _ => ⟨rfl, rfl⟩⟩
    · unfold perform
      rfl

/-! ## Runs -/

/-- `xOpen` has made the file object; without `SQLITE_OPEN_CREATE` the file was there. -/
def Opens (m : VfsMethods F) (files : String → Option Bytes) (path : String) (flags : Nat) (file : F) : Prop :=
  prbVFSOpen m path flags = (.ok, some file) ∧ (creates flags = true ∨ (files path).isSome = true)

/-- Each call of a sequence meets the contract, with the bytes of the file before and after it. -/
def Conforms (m : VfsMethods F) (view : F → OpenFile) (file : F) (calls : List Call) : Prop :=
  ∀ pre call, pre ++ [call] <+: calls →
    Contract (view (performAll m file pre)).content call (perform m (performAll m file pre) call).1
      (view (performAll m file (pre ++ [call]))).content

theorem prbFileExist_eq (h : Ordinary m files view) (path : String) : prbFileExist m path = (files path).isSome := by
  unfold prbFileExist
  rw [h.exist]
  cases (files path).isSome
  · rfl
  · rfl

theorem Opens.writable (h : Ordinary m files view) {path : String} {flags : Nat} (hopen : Opens m files path flags file) :
    (view file).writable = creates flags := by
  obtain ⟨hopen, hthere⟩ := hopen
  have hnew : m.fileNew path (openMode m path flags) = some file := by
    unfold prbVFSOpen prbFileNew at hopen
    split at hopen
    · cases hopen
    · rename_i heq
      cases hopen
      exact heq
  unfold openMode at hnew
  rw [prbFileExist_eq h] at hnew
  cases hcreate : creates flags with
  | true =>
    rw [hcreate, if_pos rfl] at hnew
    cases hfile : files path with
    | none =>
      rw [hfile, if_neg (by simp)] at hnew
      rw [h.new_wPlus hnew]
    | some content =>
      rw [hfile, if_pos (by simp)] at hnew
      rw [h.new_rPlus hfile hnew]
  | false =>
    rw [hcreate] at hthere hnew
    obtain ⟨content, hfile⟩ := Option.isSome_iff_exists.mp (hthere.resolve_left Bool.false_ne_true)
    rw [h.new_r hfile hnew]

theorem performAll_writable (h : Ordinary m files view) (file : F) (calls : List Call)
    (hbounded : ∀ call ∈ calls, call.Bounded) : (view (performAll m file calls)).writable = (view file).writable := by
  induction calls using List.reverseRecOn with
  | nil => rfl
  | append_singleton calls call ih =>
    unfold performAll
    rw [List.foldl_append, List.foldl_cons, List.foldl_nil]
    refine (perform_contract_iff h _ (hbounded call (by simp))).2.trans ?_
    exact ih fun c hc => hbounded c (List.mem_append_left _ hc)

/-- A sequence of calls on an open file conforms exactly when each of them is one that prb_vfs honours. -/
theorem conforms_iff (h : Ordinary m files view) {path : String} {flags : Nat} (hopen : Opens m files path flags file)
    {calls : List Call} (hbounded : ∀ call ∈ calls, call.Bounded) :
    Conforms m view file calls ↔ ∀ pre call, pre ++ [call] <+: calls →
      call.Honoured (creates flags) (view (performAll m file pre)).content := by
  have hstep (pre : List Call) (call : Call) (hpre : pre ++ [call] <+: calls) :
      Contract (view (performAll m file pre)).content call (perform m (performAll m file pre) call).1
        (view (performAll m file (pre ++ [call]))).content ↔
      call.Honoured (creates flags) (view (performAll m file pre)).content := by
    have hmem (c : Call) (hc : c ∈ pre ++ [call]) : c ∈ calls := hpre.subset hc
    have hlast : performAll m file (pre ++ [call]) = (perform m (performAll m file pre) call).2 := by
      unfold performAll
      rw [List.foldl_append]
      rfl
    rw [hlast, ← hopen.writable h,
      ← performAll_writable h file pre fun c hc => hbounded c (hmem c (List.mem_append_left _ hc))]
    exact (perform_contract_iff h _ (hbounded call (hmem call (by simp)))).1
  exact forall_congr' fun pre => forall_congr' fun call => forall_congr' fun hpre => hstep pre call hpre

/-- `xAccess` tells whether the file exists only when it is asked for that. -/
theorem prbVFSAccess_iff (h : Ordinary m files view) (path : String) (access : Access) :
    prbVFSAccess m path access = some (if (files path).isSome then 1 else 0) ↔ access = .accessExists := by
  cases access with
  | accessExists =>
    unfold prbVFSAccess
    rw [prbFileExist_eq h]
    exact ⟨fun _ => rfl, fun _ => rfl⟩
  | accessReadWrite =>
    unfold prbVFSAccess prbFileStat
    rw [h.stat]
    simp
  | accessRead =>
    unfold prbVFSAccess prbFileStat
    rw [h.stat]
    simp

/-- **prb_vfs keeps SQLite's storage contract** over a sequence of calls exactly when each of them is honoured, and
`xAccess` exactly when it is asked for existence. -/
theorem vfs_iff (h : Ordinary m files view) :
    (∀ (path : String) (flags : Nat) (file : F), Opens m files path flags file →
      ∀ calls : List Call, (∀ call ∈ calls, call.Bounded) →
        (Conforms m view file calls ↔ ∀ pre call, pre ++ [call] <+: calls →
          call.Honoured (creates flags) (view (performAll m file pre)).content)) ∧
    ∀ (path : String) (access : Access),
      prbVFSAccess m path access = some (if (files path).isSome then 1 else 0) ↔ access = .accessExists :=
  ⟨fun _ _ _ hopen _ hbounded => conforms_iff h hopen hbounded, prbVFSAccess_iff h⟩

/-! ## A driver -/

/-- One file on the volume, and files as they are. -/
def sampleMethods : VfsMethods OpenFile where
  fileNew path
    | .r => if path = "a.db" then some ⟨[1, 2, 3, 4], 0, false⟩ else none
    | .rPlus => if path = "a.db" then some ⟨[1, 2, 3, 4], 0, true⟩ else none
    | .wPlus => some ⟨[], 0, true⟩
  fileRead file n := (if file.piece n = [] then .nil else .string (file.piece n),
    { file with pos := file.pos + (file.piece n).length })
  fileWrite file data :=
    if file.writable then
      (.integer data.length, {
        file with
        content := if data = [] then file.content else
          (file.content ++ List.replicate (file.pos - file.content.length) 0).take file.pos ++ data ++
            file.content.drop (file.pos + data.length)
        pos := file.pos + data.length })
    else (.integer 0, file)
  fileSeek file pos := (.integer 0, { file with pos := pos.toNat })
  fileSize file := .integer file.content.length
  fileExist path := if path = "a.db" then .true else .false
  fileStat := none

def sampleFiles (path : String) : Option Bytes := if path = "a.db" then some [1, 2, 3, 4] else none

theorem sample_ordinary : Ordinary sampleMethods sampleFiles id where
  exist path := by
    unfold sampleMethods sampleFiles
    by_cases hpath : path = "a.db"
    · simp [hpath]
    · simp [hpath]
  stat := rfl
  new_r {path content file} hfile hnew := by
    unfold sampleFiles at hfile
    unfold sampleMethods at hnew
    split at hfile
    · rename_i hpath
      cases hfile
      simp only [if_pos hpath] at hnew
      cases hnew
      rfl
    · cases hfile
  new_rPlus {path content file} hfile hnew := by
    unfold sampleFiles at hfile
    unfold sampleMethods at hnew
    split at hfile
    · rename_i hpath
      cases hfile
      simp only [if_pos hpath] at hnew
      cases hnew
      rfl
    · cases hfile
  new_wPlus hnew := by
    cases hnew
    rfl
  seek file pos := ⟨_, rfl, rfl⟩
  read file n := ⟨_, rfl, rfl⟩
  write file data hwritable := by
    have hwrite : sampleMethods.fileWrite file data = _ := if_pos hwritable
    refine ⟨_, _, hwrite, ?_, by rw [← hwritable]; rfl⟩
    unfold Overwritten
    split
    · rfl
    · exact ⟨_, List.length_replicate, rfl⟩
  write_readOnly file data hwritable := ⟨file, if_neg (by simpa using hwritable), rfl⟩
  size file := rfl

/-- A read past the end, a truncation, a write without `SQLITE_OPEN_CREATE`, and the access flags. -/
theorem short_read_stale :
    (perform sampleMethods ⟨[1, 2, 3, 4], 0, true⟩ (.read [9, 9, 9] 2)).1 = .read .ioErrShortRead [3, 4, 9] ∧
    perform sampleMethods ⟨[1, 2, 3, 4], 0, true⟩ (.truncate 1) = (.truncate .ok, ⟨[1, 2, 3, 4], 0, true⟩) ∧
    (perform sampleMethods ⟨[1, 2, 3, 4], 0, false⟩ (.write [9] 0)).1 = .write .ioErrWrite ∧
    prbVFSAccess sampleMethods "a.db" .accessRead = none := by
  decide

theorem written_conforms :
    Conforms sampleMethods id ⟨[1, 2, 3, 4], 0, true⟩
      [.write [7, 8] 6, .fileSize, .read [0, 0] 7, .read [9, 9] 1, .truncate 8] ∧
    prbVFSAccess sampleMethods "a.db" .accessExists = some 1 := by
  have hopen : Opens sampleMethods sampleFiles "a.db" 6 ⟨[1, 2, 3, 4], 0, true⟩ := ⟨by decide, by decide⟩
  constructor
  · refine ((vfs_iff sample_ordinary).1 "a.db" 6 _ hopen _ (by simp [Call.Bounded])).mpr ?_
    simp only [forall_steps_cons]
    refine ⟨Or.inl rfl, trivial, ?_, ?_, ?_, forall_steps_nil⟩
    · exact fun b hb => List.mem_singleton.mp hb
    · exact fun b hb => absurd hb List.not_mem_nil
    · exact Nat.le_refl 8
  · exact ((vfs_iff sample_ordinary).2 "a.db" .accessExists).mpr rfl

end PicoRuby.Sqlite
