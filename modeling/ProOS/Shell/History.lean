import ProOS.Kernel.Types
import ProOS.Framework.RingBuffer

namespace ProOS.Shell

open ProOS.Framework List

def inputMax : Nat := 256
def shellHistoryCapacity : Nat := 32

/-- The globals `shell_history`, `shell_history_next` and `shell_history_count`; a line is the text before
its terminator. -/
structure History where
  lines : Nat → Str
  next : Nat
  count : Nat

def History.empty : History := ⟨fun _ => [], 0, 0⟩

def shellStrEquals : Str → Str → Bool
  | a :: as, b :: bs => if a ≠ b then false else shellStrEquals as bs
  | [], [] => true
  | _, _ => false

def historyGetLatest (h : History) (offset : Nat) : Option Str :=
  if h.count ≤ offset then none
  else some (h.lines ((h.next + shellHistoryCapacity - 1 - offset) % shellHistoryCapacity))

def historyStore (h : History) (line : Str) : History :=
  if line = [] then h
  else
    let len := if inputMax ≤ line.length then inputMax - 1 else line.length
    if 0 < h.count ∧
        shellStrEquals (h.lines ((h.next + shellHistoryCapacity - 1) % shellHistoryCapacity)) line then h
    else
      { lines := Function.update h.lines h.next (line.take len)
        next := (h.next + 1) % shellHistoryCapacity
        count := if h.count < shellHistoryCapacity then h.count + 1 else h.count }

/-- One line more, unless it is empty or the line stored just before. -/
def keep (kept : List Str) (line : Str) : List Str :=
  if line = [] ∨ kept.getLast? = some line then kept else kept ++ [line]

/-- What a history without bounds would hold, the oldest line first. -/
def keptLines (lines : List Str) : List Str := lines.foldl keep []

theorem shellStrEquals_iff {a b : Str} : shellStrEquals a b = true ↔ a = b := by
  induction a generalizing b with
  | nil => cases b <;> simp [shellStrEquals]
  | cons x a ih =>
    cases b with
    | nil => simp [shellStrEquals]
    | cons y b => simp [shellStrEquals, ih]

/-- The ring holds the newest of the lines kept. -/
structure Keeps (h : History) (kept : List Str) : Prop where
  lines : ∃ head < shellHistoryCapacity, h.next = (head + h.count) % shellHistoryCapacity ∧
    ring h.lines shellHistoryCapacity head h.count = newest shellHistoryCapacity kept
  count : h.count = min kept.length shellHistoryCapacity

variable {h : History} {kept : List Str} {line : Str}

theorem Keeps.get (hk : Keeps h kept) (k : Nat) : historyGetLatest h k =
    if k < min kept.length shellHistoryCapacity then kept[kept.length - 1 - k]? else none := by
  obtain ⟨head, hhead, hnext, hring⟩ := hk.lines
  unfold historyGetLatest
  rw [← hk.count]
  by_cases hlt : k < h.count
  · rw [if_neg (by omega), if_pos hlt]
    have hcount := hk.count
    -- the cell `k` before the end of the ring
    have hplace : (h.next + shellHistoryCapacity - 1 - k) % shellHistoryCapacity =
        (head + (h.count - 1 - k)) % shellHistoryCapacity := by
      rw [hnext]
      unfold shellHistoryCapacity at *
      omega
    have hcell : (ring h.lines shellHistoryCapacity head h.count)[h.count - 1 - k]? =
        some (h.lines ((head + (h.count - 1 - k)) % shellHistoryCapacity)) := by
      rw [ring, getElem?_map, getElem?_range (by omega), Option.map_some]
    rw [hplace, ← hcell, hring, newest, getElem?_drop]
    congr 1
    omega
  · rw [if_pos (by omega), if_neg hlt]

theorem Keeps.last (hk : Keeps h kept) : (0 < h.count ∧
    shellStrEquals (h.lines ((h.next + shellHistoryCapacity - 1) % shellHistoryCapacity)) line = true) ↔
      kept.getLast? = some line := by
  have hget := hk.get 0
  have hcount := hk.count
  rw [shellStrEquals_iff, getLast?_eq_getElem?]
  unfold historyGetLatest at hget
  by_cases hpos : 0 < h.count
  · rw [if_neg (by omega), if_pos (by omega)] at hget
    simp only [Nat.sub_zero] at hget
    rw [← hget, Option.some.injEq, and_iff_right hpos]
  · have hnil : kept = [] := eq_nil_of_length_eq_zero (by
      unfold shellHistoryCapacity at hcount
      omega)
    simp [hpos, hnil]

theorem Keeps.store (hk : Keeps h kept) (hlen : line.length < inputMax) :
    Keeps (historyStore h line) (keep kept line) := by
  unfold historyStore keep
  by_cases hline : line = []
  · rw [if_pos hline, if_pos (.inl hline)]
    exact hk
  by_cases hlast : kept.getLast? = some line
  · rw [if_neg hline, if_pos (hk.last.mpr hlast), if_pos (.inr hlast)]
    exact hk
  rw [if_neg hline, if_neg (not_or.mpr ⟨hline, hlast⟩)]
  dsimp only
  rw [if_neg (fun heq => hlast (hk.last.mp heq)), if_neg (not_le.mpr hlen), take_length]
  obtain ⟨head, hhead, hnext, hring⟩ := hk.lines
  have hcount := hk.count
  have hle : h.count ≤ shellHistoryCapacity := hcount ▸ min_le_right _ _
  have hpush := ring_push_newest h.lines hhead hle line
  rw [hring, newest_append] at hpush
  refine ⟨⟨if h.count = shellHistoryCapacity then (head + 1) % shellHistoryCapacity else head, ?_, ?_, ?_⟩, ?_⟩
  · split_ifs
    · exact Nat.mod_lt _ (by decide)
    · exact hhead
  · unfold shellHistoryCapacity at *
    dsimp only
    split_ifs <;> omega
  · rw [← hpush, hnext]
    dsimp only
    congr 1
    split_ifs <;> omega
  · rw [length_append, length_singleton]
    unfold shellHistoryCapacity at *
    dsimp only
    split_ifs <;> omega

theorem Keeps.run {lines : List Str} (hk : Keeps h kept) (hlen : ∀ line ∈ lines, line.length < inputMax) :
    Keeps (lines.foldl historyStore h) (lines.foldl keep kept) := by
  induction lines generalizing h kept with
  | nil => exact hk
  | cons line lines ih =>
    exact ih (hk.store (hlen line mem_cons_self)) (fun l hl => hlen l (mem_cons_of_mem line hl))

/-- The `k`-th line from the end of those kept, as long as the ring reaches back. -/
theorem history_latest_kept (lines : List Str) (hlen : ∀ line ∈ lines, line.length < inputMax) (k : Nat) :
    historyGetLatest (lines.foldl historyStore .empty) k =
      if k < min (keptLines lines).length shellHistoryCapacity
      then (keptLines lines)[(keptLines lines).length - 1 - k]? else none := by
  have hempty : Keeps .empty [] := ⟨⟨0, by decide, rfl, rfl⟩, rfl⟩
  exact (hempty.run hlen).get k

/-- Three lines of which the second repeats the first. -/
theorem history_latest_kept_repeated :
    historyGetLatest ([[108], [108], [99]].foldl historyStore .empty) 1 = some [108] :=
  (history_latest_kept [[108], [108], [99]] (by decide) 1).trans (by decide)

end ProOS.Shell
