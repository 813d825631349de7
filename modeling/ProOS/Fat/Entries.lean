import ProOS.Fat.Volume

namespace ProOS.Fat

open ProOS.Framework List

section Entries

variable {v : Volume} {m : Mem} {c p q x : Nat}

theorem getFatEntry_put (x : Nat) : getFatEntry v (putFatEntry v m p x) p = x % fatLimit v := by
  unfold getFatEntry putFatEntry fatLimit
  cases v.fatType with
  | fat16 => exact get16_put16 x
  | fat32 =>
    have h := get32_lt m p
    dsimp only
    rw [get32_put32]
    omega

theorem isEoc_put_eocMarker : isEoc v (getFatEntry v (putFatEntry v m p (eocMarker v)) p) = true := by
  rw [getFatEntry_put]
  unfold isEoc eocMarker fatLimit
  cases v.fatType <;> decide

theorem getFatEntry_put_apart (h : p + entrySize v ≤ q ∨ q + entrySize v ≤ p) :
    getFatEntry v (putFatEntry v m q x) p = getFatEntry v m p := by
  unfold getFatEntry putFatEntry
  unfold entrySize at h
  cases ht : v.fatType with
  | fat16 =>
    rw [ht] at h
    apply get16_congr
    intro i h₁ h₂
    exact put16_agreeOff _ i (by dsimp only at h; omega)
  | fat32 =>
    rw [ht] at h
    dsimp only
    rw [get32_congr]
    intro i h₁ h₂
    exact put32_agreeOff _ i (by dsimp only at h; omega)

theorem sectorPtr_eq {sector : Nat} (h : sectorPtr v sector = some p) : p = sector * v.bytesPerSector % 2 ^ 32 := by
  unfold sectorPtr at h
  dsimp only at h
  split at h
  · cases h
  · exact (Option.some.inj h).symm

theorem fatEntryPtr_eq {k : Nat} (h : fatEntryPtr v k c = some p) :
    p = ((v.reservedSectors + c * entrySize v % 2 ^ 32 / v.bytesPerSector) * v.bytesPerSector +
        k * v.sectorsPerFat * v.bytesPerSector) % 2 ^ 32 + c * entrySize v % 2 ^ 32 % v.bytesPerSector := by
  unfold fatEntryPtr at h
  obtain ⟨s, hs, rfl⟩ := Option.map_eq_some_iff.mp h
  rw [sectorPtr_eq hs, Nat.mod_mul_mod]
  congr 2
  ring

theorem range_fatCount (hcopy : 0 < v.fatCount) :
    List.range v.fatCount = 0 :: (List.range (v.fatCount - 1)).map Nat.succ := by
  obtain ⟨n, hn⟩ : ∃ n, v.fatCount = n + 1 := ⟨v.fatCount - 1, by omega⟩
  rw [hn, range_succ_eq_map, Nat.add_sub_cancel]

theorem getFatEntry_writeCopies (hp : fatEntryPtr v 0 c = some p)
    (hapart : ∀ k q, 0 < k → k < v.fatCount → fatEntryPtr v k c = some q →
      p + entrySize v ≤ q ∨ q + entrySize v ≤ p) (hcopy : 0 < v.fatCount) :
    getFatEntry v ((List.range v.fatCount).foldl (writeFatCopy v c x) m) p = getFatEntry v (putFatEntry v m p x) p := by
  -- the later copies keep the first one as it is
  have hrest : ∀ (l : List Nat) (m : Mem), (∀ k ∈ l, 0 < k ∧ k < v.fatCount) →
      getFatEntry v (l.foldl (writeFatCopy v c x) m) p = getFatEntry v m p := by
    intro l
    induction l with
    | nil => exact fun m _ => rfl
    | cons k l ih =>
      intro m hl
      rw [foldl_cons, ih _ (fun j hj => hl j (mem_cons_of_mem k hj)), writeFatCopy]
      obtain ⟨hk, hk'⟩ := hl k (by simp)
      cases hq : fatEntryPtr v k c with
      | none => rfl
      | some q => exact getFatEntry_put_apart (hapart k q hk hk' hq)
  rw [range_fatCount hcopy, foldl_cons, hrest]
  · rw [writeFatCopy, hp]
  · intro k hk
    obtain ⟨j, hj, rfl⟩ := List.mem_map.mp hk
    have := mem_range.mp hj
    omega

theorem entry_of_not_eoc (h : isEoc v (readFat v m c) = false) :
    c < (v.totalClusters + 2) % 2 ^ 32 ∧ ∃ p, fatEntryPtr v 0 c = some p ∧ readFat v m c = getFatEntry v m p := by
  have hmarker : isEoc v (eocMarker v) = true := by
    unfold isEoc eocMarker
    cases v.fatType <;> decide
  unfold readFat at h ⊢
  split at h
  · rw [hmarker] at h
    cases h
  · rename_i hc
    rw [if_neg hc]
    refine ⟨by omega, ?_⟩
    cases hp : fatEntryPtr v 0 c with
    | none =>
      rw [hp] at h
      dsimp only at h
      rw [hmarker] at h
      cases h
    | some p => exact ⟨p, rfl, rfl⟩

theorem not_eoc_zero : isEoc v 0 = false := by
  unfold isEoc
  cases v.fatType <;> decide

theorem eocMarker_ne_zero (v : Volume) : eocMarker v ≠ 0 := by
  unfold eocMarker
  cases v.fatType <;> decide

theorem readFat_eq (hc : c < (v.totalClusters + 2) % 2 ^ 32) (hp : fatEntryPtr v 0 c = some p) (m : Mem) :
    readFat v m c = getFatEntry v m p := by
  rw [readFat, if_neg (by omega), hp]

theorem writeFat_eq (hc : c < (v.totalClusters + 2) % 2 ^ 32) (m : Mem) (x : Nat) :
    writeFat v m c x = (List.range v.fatCount).foldl (writeFatCopy v c x) m := by
  rw [writeFat, if_neg (by omega)]

end Entries

end ProOS.Fat
