import SpatialDb.Server.Follow

/-!
# The search for a position to follow from

`followCheckSome` (`checksum.go`) compares blocks of its file with those of the
leader and halves the part in question.  A block is compared at the middle of
that part, so the search stops as soon as the part is smaller than a block.

Everything before `min` is known to be in both files.  The block at `limit` is
known to differ, unless `limit` is still the size of the file.
-/

namespace SpatialDb.Server

open Lib List

variable {G D : Type} [DecidableEq D]

/-- The positions of the blocks that the loop compares, in order. -/
def loopBlocks (matched : Int → Bool) (min max limit : Int) : List Int :=
  if max < min ∨ limit < max + checksumsz then []
  else if matched max then
    let min := max + checksumsz
    max :: loopBlocks matched min ((limit - min) / 2 - checksumsz / 2 + min) limit
  else
    let limit := max
    max :: loopBlocks matched min ((limit - min) / 2 - checksumsz / 2 + min) limit
termination_by (limit - min).toNat
decreasing_by
  all_goals
    unfold checksumsz at *
    omega

/-- All blocks that the search compares. -/
def searchBlocks (md5 : Bytes → D) (leader : Bytes) (f : Follower G) : List Int :=
  let matched (pos : Int) := matchChecksums md5 leader f pos.toNat checksumsz
  0 :: if matched 0 then loopBlocks matched checksumsz (f.aofsz - checksumsz) f.aofsz else []

/-! ## The loop -/

section Loop

variable {matched : Int → Bool} {common min max limit : Int}

/-- No block past `limit` is compared, and none before `min`. -/
theorem loopBlocks_inside (hmin : 0 ≤ min) :
    ∀ pos ∈ loopBlocks matched min max limit, 0 ≤ pos ∧ pos + checksumsz ≤ limit := by
  fun_induction loopBlocks matched min max limit with
  | case1 min max limit h => simp
  | case2 min max limit h hmatch next ih =>
    intro pos hmem
    rcases mem_cons.mp hmem with rfl | hmem
    · omega
    · exact ih (by omega) pos hmem
  | case3 min max limit h hmatch next ih =>
    intro pos hmem
    rcases mem_cons.mp hmem with rfl | hmem
    · omega
    · have hinside := ih hmin pos hmem
      omega

/-- The search depends on the blocks that it compares alone. -/
theorem checkLoop_congr {matched' : Int → Bool}
    (h : ∀ p ∈ loopBlocks matched min max limit, matched' p = matched p) :
    checkLoop matched' min max limit = checkLoop matched min max limit := by
  fun_induction loopBlocks matched min max limit with
  | case1 min max limit hstop =>
    conv => lhs; rw [checkLoop, if_pos hstop]
    rw [checkLoop, if_pos hstop]
  | case2 min max limit hstop hmatch next ih =>
    have hmatch' := (h max mem_cons_self).trans hmatch
    conv => lhs; rw [checkLoop, if_neg hstop, if_pos hmatch']
    conv => rhs; rw [checkLoop, if_neg hstop, if_pos hmatch]
    exact ih fun p hp => h p (mem_cons_of_mem _ hp)
  | case3 min max limit hstop hmatch next ih =>
    have hmatch' : ¬ matched' max = true := h max mem_cons_self ▸ hmatch
    conv => lhs; rw [checkLoop, if_neg hstop, if_neg hmatch']
    conv => rhs; rw [checkLoop, if_neg hstop, if_neg hmatch]
    exact ih fun p hp => h p (mem_cons_of_mem _ hp)

/-- What is before `min` is common.  `limit` is at most one block below the end
of the common part, or is the size; the part between them only shrinks. -/
theorem checkLoop_spec {size : Int} (hmin : 0 ≤ min) (hcommon : min ≤ common)
    (hmatch : ∀ pos, 0 ≤ pos → (matched pos = true ↔ pos + checksumsz ≤ common))
    (hlimit : limit = size ∨ common < limit + checksumsz)
    (hmax : max = size - checksumsz ∧ limit = size ∨
      max = (limit - min) / 2 - checksumsz / 2 + min) :
    checkLoop matched min max limit ≤ common ∧
      (size < checkLoop matched min max limit + 2 * checksumsz ∨
        common < checkLoop matched min max limit + 2 * checksumsz) := by
  fun_induction checkLoop matched min max limit with
  | case1 min max limit h => omega
  | case2 min max limit h hm next ih =>
    have hle := (hmatch max (by omega)).mp hm
    exact ih (by omega) (by omega) hlimit (.inr rfl)
  | case3 min max limit h hm next ih =>
    have hgt := mt (hmatch max (by omega)).mpr hm
    exact ih hmin hcommon (.inr (by omega)) (.inr rfl)

end Loop

/-- The search stays in the file, and ends at a position up to which the files
agree and less than two blocks below all they have in common.  It ends at zero
if not even the first block agrees. -/
theorem searchPos_bounds (md5 : Bytes → D) (leader : Bytes) (f : Follower G)
    (hsize : checksumsz ≤ f.aofsz)
    (hmatch : ∀ pos : Nat, matchChecksums md5 leader f pos checksumsz = true ↔
      pos + checksumsz ≤ commonLength f.aof leader) :
    (∀ pos ∈ searchBlocks md5 leader f, 0 ≤ pos ∧ pos + checksumsz ≤ f.aofsz) ∧
    0 ≤ searchPos md5 leader f ∧
    searchPos md5 leader f ≤ commonLength f.aof leader ∧
    (checksumsz ≤ commonLength f.aof leader →
      min (commonLength f.aof leader) f.aofsz < searchPos md5 leader f + 2 * checksumsz) ∧
    (commonLength f.aof leader < checksumsz → searchPos md5 leader f = 0) := by
  have hpos : (0 : Int) < checksumsz := by decide
  have hmatch' : ∀ pos : Int, 0 ≤ pos →
      (matchChecksums md5 leader f pos.toNat checksumsz = true ↔
        pos + checksumsz ≤ (commonLength f.aof leader : Int)) := by
    intro pos hp
    rw [hmatch pos.toNat]
    omega
  have hzero := hmatch' 0 le_rfl
  by_cases hfirst : checksumsz ≤ commonLength f.aof leader
  · have hm : matchChecksums md5 leader f (0 : Int).toNat checksumsz = true := hzero.mpr (by omega)
    have hcommon : (checksumsz : Int) ≤ commonLength f.aof leader := by omega
    have hspec := checkLoop_spec hpos.le hcommon hmatch' (.inl (rfl : (f.aofsz : Int) = f.aofsz))
      (.inl ⟨rfl, rfl⟩)
    have hle := le_checkLoop (fun pos => matchChecksums md5 leader f pos.toNat checksumsz)
      checksumsz (f.aofsz - checksumsz) f.aofsz
    have hsearch : searchPos md5 leader f = checkLoop
        (fun pos => matchChecksums md5 leader f pos.toNat checksumsz)
        checksumsz (f.aofsz - checksumsz) f.aofsz := if_pos hm
    have hblocks : searchBlocks md5 leader f = 0 :: loopBlocks
        (fun pos => matchChecksums md5 leader f pos.toNat checksumsz)
        checksumsz (f.aofsz - checksumsz) f.aofsz := by
      rw [searchBlocks, if_pos hm]
    rw [hsearch, hblocks]
    refine ⟨?_, by omega, hspec.1, fun _ => by omega, fun h => by omega⟩
    intro pos hmem
    rcases mem_cons.mp hmem with rfl | hmem
    · omega
    · exact loopBlocks_inside hpos.le pos hmem
  have hm : ¬ matchChecksums md5 leader f (0 : Int).toNat checksumsz = true :=
    mt hzero.mp (by omega)
  have hsearch : searchPos md5 leader f = 0 := if_neg hm
  have hblocks : searchBlocks md5 leader f = [0] := by
    rw [searchBlocks, if_neg hm]
  rw [hsearch, hblocks]
  refine ⟨?_, le_rfl, by omega, fun h => absurd h hfirst, fun _ => rfl⟩
  intro pos hmem
  rw [mem_singleton.mp hmem]
  omega

/-- A follower with the file of its leader, two blocks long. -/
def twin : Follower Unit :=
  ⟨ServerState.empty, replicate (2 * checksumsz) 42, 2 * checksumsz⟩

theorem commonLength_self (s : Bytes) : commonLength s s = s.length := by
  have hle : s.length ≤ commonLength s s := le_commonLength_iff.mpr ⟨le_rfl, le_rfl, rfl⟩
  have hge := (le_commonLength_iff.mp (le_refl (commonLength s s))).1
  omega

theorem searchPos_bounds_twin :
    checksumsz ≤ twin.aofsz ∧
      (2 * checksumsz : Int) < searchPos id twin.aof twin + 2 * checksumsz := by
  have hlen : twin.aof.length = 2 * checksumsz := length_replicate
  have hsize : checksumsz ≤ twin.aofsz := by
    change checksumsz ≤ 2 * checksumsz
    omega
  have hmatch : ∀ pos : Nat, matchChecksums id twin.aof twin pos checksumsz = true ↔
      pos + checksumsz ≤ commonLength twin.aof twin.aof := by
    intro pos
    have htrusted : Trusted id twin.aof twin.aof := fun p h => h
    rw [htrusted.match_iff hlen.symm pos, commonLength_self]
    simp
  have hcommon : checksumsz ≤ commonLength twin.aof twin.aof := by
    rw [commonLength_self, hlen]
    omega
  have hbound := (searchPos_bounds id twin.aof twin hsize hmatch).2.2.2.1 hcommon
  rw [commonLength_self, hlen] at hbound
  exact ⟨hsize, by simpa [twin] using hbound⟩

end SpatialDb.Server
