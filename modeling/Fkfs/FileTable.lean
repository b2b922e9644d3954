/-
The file table: the names and settings the program gave its files.

`fkfs_initialize_file` puts a name into the header and the settings beside it;
`fkfs_initialize` then replaces the header by one from the card, whichever that
is, and carries the names over. Nothing later touches either. So what
`fkfs_get_file` reports is what was configured, from the mount on
(`file_table_iff`).

What fails is the count. `fkfs_number_of_files` returns the index of the first
empty name, and 0 if there is none, so a full table counts as an empty one.
-/
import Mathlib.Data.List.TakeWhile
import Fkfs.Structure

set_option autoImplicit false

namespace Fkfs.FileTable

open Bytes Relation
open Fkfs.Crc Fkfs.Layout Fkfs.Device Fkfs.Search Fkfs.Append Fkfs.Iterate Fkfs.Mount Fkfs.Cache Fkfs.Writer
open Fkfs.Run Fkfs.Slots

/-! ## The code -/

/-- `fkfs_number_of_files`. -/
def fkfs_number_of_files (fs : fkfs_t) : UInt8 :=
  match (List.finRange 4).find? fun counter => (fs.header.files counter).name 0 == 0 with
  | some counter => UInt8.ofNat counter
  | none => 0

/-- `fkfs_file_info_t`. -/
structure fkfs_file_info_t where
  size : UInt32
  sync : UInt8
  priority : UInt8
  version : UInt16
  name : Fin 12 → UInt8

/-- `fkfs_get_file`. -/
def fkfs_get_file (fs : fkfs_t) (fileNumber : FileNumber) : fkfs_file_info_t where
  sync := (fs.files fileNumber).sync
  priority := (fs.files fileNumber).priority
  name := strncpy (List.ofFn (fs.header.files fileNumber).name)
  version := (fs.header.files fileNumber).version
  size := (fs.header.files fileNumber).size

/-- `fkfs_create`, and `fkfs_initialize_file` for the first `k` files. -/
def configuredFirst (k : ℕ) (cfg : FileNumber → FileConfig) : fkfs_t :=
  ((List.finRange 4).take k).foldl (fun fs f => fkfs_initialize_file fs f (cfg f)) fkfs_create

/-! ## Names -/

/-- A C string that is not empty. -/
abbrev NonEmpty (name : List UInt8) : Prop := name.headD 0 ≠ 0

/-- The twelve bytes of a string: its start, and zeros behind it. -/
theorem ofFn_getD (w : List UInt8) :
    List.ofFn (fun i : Fin 12 => w.getD i 0) = w.take 12 ++ List.replicate (12 - w.length) 0 := by
  apply List.ext_getElem
  · simp only [List.length_ofFn, List.length_append, List.length_take, List.length_replicate]
    omega
  · intro i h1 h2
    rw [List.length_ofFn] at h1
    rw [List.getElem_ofFn]
    by_cases hi : i < w.length
    · rw [List.getElem_append_left (by simp only [List.length_take]; omega), List.getElem_take,
        List.getD_eq_getElem _ _ hi]
    · rw [List.getElem_append_right (by simp only [List.length_take]; omega),
        List.getElem_replicate, List.getD_eq_default _ _ (Nat.le_of_not_lt hi)]

/-- Copying a name once more changes nothing. -/
theorem strncpy_strncpy (src : List UInt8) : strncpy (List.ofFn (strncpy src)) = strncpy src := by
  have hw : ∀ b ∈ (src.takeWhile (· ≠ 0)).take 12, decide (b ≠ 0) = true := by
    intro b hb
    have hmem := List.mem_of_mem_take hb
    exact @List.mem_takeWhile_imp _ _ _ b hmem
  have hz : (List.replicate (12 - (src.takeWhile (· ≠ 0)).length) (0 : UInt8)).takeWhile (· ≠ 0)
      = [] := by
    cases 12 - (src.takeWhile (· ≠ 0)).length <;> rfl
  funext i
  unfold strncpy
  rw [ofFn_getD, List.takeWhile_append_of_pos hw, hz, List.append_nil]
  have hi := i.isLt
  by_cases h : i.val < (src.takeWhile (· ≠ 0)).length
  · rw [List.getD_eq_getElem _ _ (by rw [List.length_take]; omega), List.getElem_take,
      List.getD_eq_getElem _ _ h]
  · rw [List.getD_eq_default _ _ (by rw [List.length_take]; omega),
      List.getD_eq_default _ _ (by omega)]

/-- The names and the settings of the files. -/
structure Table where
  name : FileNumber → Fin 12 → UInt8
  settings : Settings

/-- The table `fs` carries. -/
def tableOf (fs : fkfs_t) : Table := ⟨fun f => (fs.header.files f).name, fs.files⟩

/-! ## No call touches the table -/

section Calls

variable {t : Table}

theorem header_write_table (s : Machine) :
    tableOf (fkfs_header_write s false).2.fs = tableOf s.fs := by
  rcases header_write_cases s with e | e | e <;> rw [e] <;> rfl

theorem fsync_table (s : Machine) : tableOf (fkfs_fsync s).2.fs = tableOf s.fs := by
  by_cases hd : s.fs.cachedBlockDirty = true
  · rcases fsync_cases hd with e | e
    · rw [e]
      rfl
    · rw [e, header_write_table]
      rfl
  · rw [fsync_clean (Bool.not_eq_true _ ▸ hd)]

theorem block_ensure_table (s : Machine) (b : UInt32) :
    tableOf (fkfs_block_ensure s b).2.fs = tableOf s.fs := by
  rcases block_ensure_cases s b with ⟨-, e⟩ | ⟨-, e⟩ | ⟨-, e⟩ <;> rw [e] <;> rfl

/-- Replacing a row by one of the same name. -/
theorem setFile_name (h : fkfs_header_t) (f : FileNumber) {file : fkfs_file_t}
    (hf : file.name = (h.files f).name) :
    (fun g => ((h.setFile f file).files g).name) = fun g => (h.files g).name := by
  funext g
  rcases eq_or_ne g f with rfl | hg
  · rw [fkfs_header_t.setFile_self, hf]
  · rw [fkfs_header_t.setFile_other _ hg]

theorem setFile_table (s : Machine) (f : FileNumber) (file : fkfs_file_t)
    (h : file.name = (s.fs.header.files f).name) :
    tableOf (s.setHeader (s.fs.header.setFile f file)).fs = tableOf s.fs := by
  simp only [tableOf, Machine.setHeader, setFile_name s.fs.header f h]

theorem afterStore_table (s : Machine) (f : FileNumber) (data : List UInt8) :
    tableOf (afterStore s f data).fs = tableOf s.fs := by
  simp only [tableOf, afterStore, storeEntry]
  congr 1
  exact setFile_name _ f rfl

theorem next_block_table (s : Machine) : tableOf (fkfs_next_block s).fs = tableOf s.fs := by
  unfold fkfs_next_block
  split <;> rfl

theorem allocates_table (t : Table) (required : ℕ) :
    Allocates required fun m => tableOf m.fs = t where
  sync := fun hm => (fsync_table _).trans hm
  next := fun hm _ => (next_block_table _).trans hm
  load := fun hm => (block_ensure_table _ _).trans hm
  place := fun hm _ _ _ => hm

theorem truncate_table (s : Machine) (f : FileNumber) :
    tableOf (fkfs_file_truncate s f).fs = tableOf s.fs :=
  setFile_table s f _ rfl

theorem truncate_all_table (s : Machine) :
    tableOf (fkfs_file_truncate_all s).fs = tableOf s.fs := by
  unfold fkfs_file_truncate_all
  induction List.finRange 4 generalizing s with
  | nil => rfl
  | cons f fs ih => exact (ih _).trans (truncate_table s f)

theorem touch_table (s : Machine) (time : UInt32) :
    tableOf (fkfs_touch s time).2.fs = tableOf s.fs :=
  header_write_table _

theorem flush_table (s : Machine) (now : UInt32) :
    tableOf (fkfs_flush s now).2.fs = tableOf s.fs := by
  have ht := touch_table s now
  unfold fkfs_flush
  split
  · rename_i s1 e
    rw [e] at ht
    exact ht
  · rename_i s1 e
    rw [e] at ht
    exact (fsync_table s1).trans ht

/-- An append keeps the table, as long as `required` does not wrap. -/
theorem append_table (ov : Overrun) (pasts : ℕ → Mem) (s : Machine) (f : FileNumber)
    {data : List UInt8} (h : data.length ≤ 65528) :
    tableOf (fkfs_file_append ov pasts s f data).2.fs = tableOf s.fs := by
  by_cases hlen : data.length ≤ 505
  · exact append_rule ov f (allocates_table (tableOf s.fs) _) hlen
      (fun {m} hm _ _ _ => (afterStore_table m f data).trans hm) pasts rfl
  · have hreq : SD_RAW_BLOCK_SIZE < ((7 : UInt16) + UInt16.ofNat data.length).toNat := by
      rw [UInt16.toNat_add, UInt16.toNat_ofNat', show (7 : UInt16).toNat = 7 from rfl]
      show 512 < _
      omega
    unfold fkfs_file_append
    rw [if_pos (.inr hreq)]

/-- A call whose payload, if it has one, is shorter than 65529 bytes. -/
def Unwrapped : Call → Prop
  | .append _ data _ => data.length ≤ 65528
  | _ => True

/-- **No call touches the table.** -/
theorem perform_table {ov : Overrun} {s s' : Machine} {c : Call} {ok : Bool} (hc : Unwrapped c)
    (h : perform ov s c = some (ok, s')) : tableOf s'.fs = tableOf s.fs := by
  have hload : ∀ {m : Machine} (b : UInt32), tableOf m.fs = tableOf s.fs →
      tableOf (fkfs_block_ensure m b).2.fs = tableOf s.fs := fun b hm =>
    (block_ensure_table _ b).trans hm
  cases c with
  | append f data pasts =>
    have := append_table ov pasts s f hc
    simp only [perform, Option.some.injEq] at h
    rw [h] at this
    exact this
  | truncate f =>
    cases h
    exact truncate_table s f
  | truncateAll =>
    cases h
    exact truncate_all_table s
  | truncateAt iter scratch ams n =>
    simp only [perform, Option.map_eq_some_iff, Prod.mk.injEq] at h
    obtain ⟨s1, h, -, rfl⟩ := h
    refine @calculateLoop_rule ov (fun m => tableOf m.fs = tableOf s.fs) hload iter.token.file
      (fun {m} size hm => (setFile_table m _ { m.fs.header.files _ with size := size } rfl).trans hm)
      _ _ _ _ _ _ _ ?_ h
    rw [setFile_table, setFile_table] <;> rfl
  | touch time =>
    have := touch_table s time
    simp only [perform, Option.some.injEq] at h
    rw [h] at this
    exact this
  | flush now =>
    have := flush_table s now
    simp only [perform, Option.some.injEq] at h
    rw [h] at this
    exact this
  | ensure iter =>
    simp only [perform, fkfs_file_iterator_ensure, Option.some.injEq] at h
    split at h
    · cases h
      rfl
    · have := hload (m := s) iter.token.block rfl
      rw [h] at this
      exact this
  | iterate config am n iter =>
    simp only [perform, Option.map_eq_some_iff, Prod.mk.injEq] at h
    obtain ⟨⟨ok1, s1, iter1⟩, h, -, rfl⟩ := h
    exact @iterate_rule ov (fun m => tableOf m.fs = tableOf s.fs) hload _ _ _ _ _ _ _ _ rfl h

end Calls

/-! ## Mounting keeps the table -/

/-- **Whichever path a mount takes**, it ends with the names and settings it
started with, copied once more or not. -/
theorem initialize_table {s s' : Machine} {wipe : Bool} {draws : FileNumber → UInt16}
    (h : Mount.fkfs_initialize s wipe draws = (true, s')) :
    s'.fs.files = s.fs.files
      ∧ ∀ f, strncpy (List.ofFn (s'.fs.header.files f).name)
        = strncpy (List.ofFn (s.fs.header.files f).name) := by
  simp only [Mount.fkfs_initialize, fkfs_read_block, sd_raw_read_block] at h
  cases hf : s.sd.fails
  · rw [hf] at h
    simp only [Bool.false_eq_true, if_false] at h
    split at h
    · obtain ⟨s1, s2, -, rfl, rfl, rfl⟩ := wipeHeaders_true h
      exact ⟨rfl, fun f => rfl⟩
    · cases h
      exact ⟨rfl, fun f => strncpy_strncpy _⟩
  · rw [hf] at h
    cases h

/-! ## What was configured is reported -/

section Configured

variable {k : ℕ} {cfg : FileNumber → FileConfig}

/-- What the configuration calls leave of file `f`. -/
theorem configuredFirst_row (hk : k ≤ 4) (cfg : FileNumber → FileConfig) (f : FileNumber) :
    (configuredFirst k cfg).files f = (if f.val < k then ⟨(cfg f).sync, (cfg f).priority⟩ else ⟨0, 0⟩)
      ∧ ((configuredFirst k cfg).header.files f).name
        = (if f.val < k then strncpy (cfg f).name else fun _ => 0) := by
  have hcase : k = 0 ∨ k = 1 ∨ k = 2 ∨ k = 3 ∨ k = 4 := by omega
  rcases hcase with rfl | rfl | rfl | rfl | rfl <;> fin_cases f <;> exact ⟨rfl, rfl⟩

/-- The first byte of a name says whether the string was empty. -/
theorem strncpy_zero (name : List UInt8) : strncpy name 0 = name.headD 0 := by
  cases name with
  | nil => rfl
  | cons b bs =>
    unfold strncpy
    by_cases hb : b = 0
    · subst hb
      rfl
    · rw [List.takeWhile_cons_of_pos (by simpa using hb)]
      rfl

/-- `fs` reports the first `k` files as they were configured. -/
def Reports (k : ℕ) (cfg : FileNumber → FileConfig) (fs : fkfs_t) : Prop :=
  ∀ i : FileNumber, i.val < k → (fkfs_get_file fs i).name = strncpy (cfg i).name
    ∧ (fkfs_get_file fs i).sync = (cfg i).sync ∧ (fkfs_get_file fs i).priority = (cfg i).priority

/-- `fs` carries the table the configuration calls left, its names copied once
more or not. -/
structure Carries (k : ℕ) (cfg : FileNumber → FileConfig) (fs : fkfs_t) : Prop where
  settings : fs.files = (configuredFirst k cfg).files
  name : ∀ f, strncpy (List.ofFn (fs.header.files f).name)
    = strncpy (List.ofFn ((configuredFirst k cfg).header.files f).name)

theorem Carries.reports {fs : fkfs_t} (h : Carries k cfg fs) (hk : k ≤ 4) : Reports k cfg fs := by
  intro i hi
  obtain ⟨hset, hname⟩ := configuredFirst_row hk cfg i
  rw [if_pos hi] at hset hname
  refine ⟨?_, ?_, ?_⟩
  · exact (h.name i).trans (by rw [hname, strncpy_strncpy])
  · rw [fkfs_get_file, h.settings, hset]
  · rw [fkfs_get_file, h.settings, hset]

/-- A file has a name if it was configured with one. -/
theorem Carries.name_zero {fs : fkfs_t} (h : Carries k cfg fs) (hk : k ≤ 4) (f : FileNumber) :
    (fs.header.files f).name 0 = if f.val < k then (cfg f).name.headD 0 else 0 := by
  have hfirst : ∀ n : Fin 12 → UInt8, strncpy (List.ofFn n) 0 = n 0 := fun n => strncpy_zero _
  rw [← hfirst (fs.header.files f).name, h.name f, hfirst, (configuredFirst_row hk cfg f).2]
  split
  · exact strncpy_zero _
  · rfl

/-- **The count**: the number of files, unless the table is full. -/
theorem Carries.number {fs : fkfs_t} (h : Carries k cfg fs) (hk : k ≤ 4)
    (hne : ∀ i : FileNumber, i.val < k → NonEmpty (cfg i).name) :
    fkfs_number_of_files fs = if k ≤ 3 then UInt8.ofNat k else 0 := by
  have hzero : ∀ f : FileNumber, ((fs.header.files f).name 0 == 0) = decide (k ≤ f.val) := by
    intro f
    rw [h.name_zero hk f]
    by_cases hf : f.val < k
    · rw [if_pos hf, decide_eq_false (by omega), beq_eq_false_iff_ne]
      exact hne f hf
    · rw [if_neg hf, decide_eq_true (by omega)]
      rfl
  unfold fkfs_number_of_files
  simp only [hzero]
  have hcase : k = 0 ∨ k = 1 ∨ k = 2 ∨ k = 3 ∨ k = 4 := by omega
  rcases hcase with rfl | rfl | rfl | rfl | rfl <;> rfl

end Configured

/-- A machine some calls later, with any pattern of failing block transfers in
each of them. -/
inductive Later (ov : Overrun) (s : Machine) : Machine → Prop
  | refl : Later ov s s
  | call {m m' : Machine} {c : Call} {ok : Bool} (h : Later ov s m) (faults : List Bool)
      (hc : Unwrapped c) (hp : perform ov (withFaults m faults) c = some (ok, m')) : Later ov s m'

theorem Later.table {ov : Overrun} {s s' : Machine} (h : Later ov s s') :
    tableOf s'.fs = tableOf s.fs := by
  induction h with
  | refl => rfl
  | call _ faults hc hp ih => exact (perform_table hc hp).trans ih

/-- **The file table survives mounting.** Whatever the card holds and whichever
path the mount takes, from then on every configured file is reported with its
name and settings; and the number of files is reported exactly if not all four
were configured. -/
theorem file_table_iff {ov : Overrun} {k : ℕ} (h1 : 1 ≤ k) (hk : k ≤ 4)
    {cfg : FileNumber → FileConfig} (hne : ∀ i : FileNumber, i.val < k → NonEmpty (cfg i).name)
    {s s' s'' : Machine} {wipe : Bool} {draws : FileNumber → UInt16}
    (hmount : Mount.fkfs_initialize { s with fs := configuredFirst k cfg } wipe draws = (true, s'))
    (hlater : Later ov s' s'') :
    Reports k cfg s''.fs ∧ (fkfs_number_of_files s''.fs = UInt8.ofNat k ↔ k ≤ 3) := by
  have hcarries : Carries k cfg s''.fs := by
    obtain ⟨hset, hname⟩ := initialize_table hmount
    have ht := hlater.table
    refine ⟨(congrArg Table.settings ht).trans hset, fun f => ?_⟩
    rw [show (s''.fs.header.files f).name = (s'.fs.header.files f).name from
      congrFun (congrArg Table.name ht) f]
    exact hname f
  refine ⟨hcarries.reports hk, ?_⟩
  rw [hcarries.number hk hne]
  constructor
  · intro h
    by_contra h3
    obtain rfl : k = 4 := by omega
    exact absurd h (by decide)
  · intro h3
    rw [if_pos h3]

/-! ## Four files -/

/-- A card of zeros. -/
def blank : Machine := ⟨fkfs_create, blankCard 16000, [], 0⟩

/-- Files named A, B, C and D. -/
def letters : FileNumber → FileConfig := fun i => ⟨0, 1, [65 + UInt8.ofNat i], 7⟩

set_option maxRecDepth 100000 in
/-- With all four files configured the mounted file system counts none. -/
theorem full_table_counts_none :
    let r := Mount.fkfs_initialize { blank with fs := configuredFirst 4 letters } false fun _ => 5
    r.1 = true ∧ fkfs_number_of_files r.2.fs = 0 := by
  decide +kernel

set_option maxRecDepth 100000 in
/-- `file_table_iff` for two files on a card of zeros, after an append. -/
theorem file_table_two :
    let r := Mount.fkfs_initialize { blank with fs := configuredFirst 2 letters } false fun _ => 5
    let s := (fkfs_file_append .reads (fun _ _ => 0) (withFaults r.2 []) 0 [1]).2
    Reports 2 letters s.fs ∧ (fkfs_number_of_files s.fs = 2 ↔ 2 ≤ 3) := by
  intro r s
  have hne : ∀ i : FileNumber, i.val < 2 → NonEmpty (letters i).name := by decide
  have hmount : r = (true, r.2) := Prod.ext (show r.1 = true by decide +kernel) rfl
  have happend : perform .reads (withFaults r.2 []) (.append 0 [1] fun _ _ => 0)
      = some ((fkfs_file_append .reads (fun _ _ => 0) (withFaults r.2 []) 0 [1]).1, s) := rfl
  have hshort : Unwrapped (.append 0 [1] fun _ _ => 0) := show [(1 : UInt8)].length ≤ 65528 by decide
  exact file_table_iff (by decide) (by decide) hne hmount (.call .refl [] hshort happend)

end Fkfs.FileTable
