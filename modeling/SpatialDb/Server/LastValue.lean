import SpatialDb.Server.Follow

/-!
# The end of the last command

`followCheckSome` cuts the log at a position up to which it agrees with the
leader's.  That position need not be the end of a command, and
`getEndOfLastValuePositionInFile` (`checksum.go`) looks for one: it goes back
to a star from which a command can be read and returns the end of that command.

A command that begins before the position may end behind it, and an argument
may contain what reads as a command.
-/

namespace SpatialDb.Server

open Lib List Option

/-! ## Boundaries -/

section Boundaries

/-- The positions between the commands of a log. -/
def boundaries (log : List (List Bytes)) : Set Nat :=
  {b | ∃ before, before <+: log ∧ (before.flatMap encodeCommand).length = b}

variable {log before after : List (List Bytes)} {args : List Bytes} {p : Nat}

/-- The command in which a position lies, or at whose end it lies. -/
theorem exists_command_at (hpos : 0 < p) (hp : p ≤ (log.flatMap encodeCommand).length) :
    ∃ before args after, log = before ++ args :: after ∧
      (before.flatMap encodeCommand).length < p ∧
      p ≤ (before.flatMap encodeCommand).length + (encodeCommand args).length := by
  induction log generalizing p with
  | nil =>
    rw [flatMap_nil, length_nil] at hp
    omega
  | cons first log ih =>
    rcases le_or_gt p (encodeCommand first).length with hle | hgt
    · exact ⟨[], first, log, rfl, hpos, by simpa using hle⟩
    rw [flatMap_cons, length_append] at hp
    obtain ⟨before, args, after, rfl, hlow, hhigh⟩ :=
      ih (p := p - (encodeCommand first).length) (by omega) (by omega)
    refine ⟨first :: before, args, after, rfl, ?_, ?_⟩
    · rw [flatMap_cons, length_append]
      omega
    · rw [flatMap_cons, length_append]
      omega

private theorem length_flatMap_le {before before' : List (List Bytes)} (h : before <+: before') :
    (before.flatMap encodeCommand).length ≤ (before'.flatMap encodeCommand).length := by
  obtain ⟨rest, rfl⟩ := h
  rw [flatMap_append, length_append]
  omega

theorem end_mem_boundaries : (before.flatMap encodeCommand).length + (encodeCommand args).length ∈
      boundaries (before ++ args :: after) := by
  refine ⟨before ++ [args], ⟨after, by simp⟩, ?_⟩
  simp

/-- No boundary inside a command. -/
theorem le_or_ge_of_mem_boundaries {b : Nat} (h : b ∈ boundaries (before ++ args :: after)) :
    b ≤ (before.flatMap encodeCommand).length ∨
      (before.flatMap encodeCommand).length + (encodeCommand args).length ≤ b := by
  obtain ⟨before', hpre, rfl⟩ := h
  have hstart : before <+: before ++ args :: after := prefix_append _ _
  have hend : before ++ [args] <+: before ++ args :: after := ⟨after, by simp⟩
  rcases le_or_gt before'.length before.length with hle | hgt
  · exact .inl (length_flatMap_le (prefix_of_prefix_length_le hpre hstart hle))
  right
  have hlong : before ++ [args] <+: before' :=
    prefix_of_prefix_length_le hend hpre (by simpa using hgt)
  simpa using length_flatMap_le hlong

end Boundaries

/-! ## Going back to a star -/

section Star

variable (rd : CommandReader) (file : Bytes)

/-- The end of the command that can be read from a star at `q`. -/
def endAt (q : Nat) : Option Nat :=
  if file[q]? = some 42 then
    match rd.read (file.drop q) with
    | .done _ rest => some (q + ((file.length - q) - rest.length))
    | _ => none
  else none

variable {rd file} {p q e : Nat}

private theorem le_of_endAt (h : endAt rd file q = some e) : q ≤ e := by
  unfold endAt at h
  split at h
  · split at h
    · cases h
      omega
    · cases h
  · cases h

/-- One byte back. -/
theorem getEndOfLastValuePositionInFile_succ (hp : p < file.length) :
    getEndOfLastValuePositionInFile rd file (p + 1) =
      (endAt rd file p).or (getEndOfLastValuePositionInFile rd file p) := by
  rw [getEndOfLastValuePositionInFile, endAt, getElem?_eq_getElem hp]
  dsimp only
  by_cases hstar : file[p] = 42
  · rw [if_pos hstar, if_pos (by rw [hstar])]
    cases rd.read (file.drop p) <;> rfl
  · rw [if_neg hstar, if_neg (by simpa using hstar)]
    rfl

/-- **The function returns the end of the last command that can be read from a
star before the position.** -/
theorem getEndOfLastValuePositionInFile_eq_some (hp : p ≤ file.length) :
    getEndOfLastValuePositionInFile rd file p = some e ↔
      ∃ q < p, endAt rd file q = some e ∧ ∀ q', q < q' → q' < p → endAt rd file q' = none := by
  induction p with
  | zero => simp [getEndOfLastValuePositionInFile]
  | succ p ih =>
    rw [getEndOfLastValuePositionInFile_succ hp]
    cases hend : endAt rd file p with
    | some e' =>
      rw [some_or]
      constructor
      · rintro ⟨⟩
        exact ⟨p, Nat.lt_succ_self p, hend, fun q' h h' => by omega⟩
      · rintro ⟨q, hq, hqe, hlast⟩
        rcases Nat.lt_succ_iff_lt_or_eq.mp hq with hlt | rfl
        · rw [hlast p hlt (Nat.lt_succ_self p)] at hend
          cases hend
        · exact hend.symm.trans hqe
    | none =>
      rw [none_or, ih (by omega)]
      constructor
      · rintro ⟨q, hq, hqe, hlast⟩
        refine ⟨q, by omega, hqe, fun q' h h' => ?_⟩
        rcases Nat.lt_succ_iff_lt_or_eq.mp h' with hlt | rfl
        · exact hlast q' h hlt
        · exact hend
      · rintro ⟨q, hq, hqe, hlast⟩
        rcases Nat.lt_succ_iff_lt_or_eq.mp hq with hlt | rfl
        · exact ⟨q, hlt, hqe, fun q' h h' => hlast q' h (by omega)⟩
        · rw [hend] at hqe
          cases hqe

/-- A command of the log can be read from its own star. -/
theorem endAt_command (rd : CommandReader) (before after : List (List Bytes)) {args : List Bytes}
    (hargs : args ≠ []) :
    endAt rd ((before ++ args :: after).flatMap encodeCommand)
        (before.flatMap encodeCommand).length =
      some ((before.flatMap encodeCommand).length + (encodeCommand args).length) := by
  obtain ⟨bytes, hbytes⟩ := encodeCommand_eq_cons args
  have hfile : (before ++ args :: after).flatMap encodeCommand =
      before.flatMap encodeCommand ++ (encodeCommand args ++ after.flatMap encodeCommand) := by
    rw [flatMap_append, flatMap_cons]
  rw [endAt, hfile, drop_left, (rd.reads args hargs).full, getElem?_append_right le_rfl,
    Nat.sub_self, if_pos (by rw [hbytes]; rfl)]
  simp only [length_append]
  congr 1
  omega

/-- If there is a star to read from, there is a last one. -/
theorem exists_last_star (hq : q < p) (hend : endAt rd file q = some e) :
    ∃ q' e', q ≤ q' ∧ q' < p ∧ endAt rd file q' = some e' ∧
      ∀ q'', q' < q'' → q'' < p → endAt rd file q'' = none := by
  induction p with
  | zero => omega
  | succ p ih =>
    cases hp : endAt rd file p with
    | some e' => exact ⟨p, e', by omega, by omega, hp, fun q'' h h' => by omega⟩
    | none =>
      have hlt : q < p := by
        refine lt_of_le_of_ne (by omega) fun heq => ?_
        rw [heq, hp] at hend
        cases hend
      obtain ⟨q', e', hle, hlt', hend', hlast⟩ := ih hlt
      refine ⟨q', e', hle, by omega, hend', fun q'' h h' => ?_⟩
      rcases Nat.lt_succ_iff_lt_or_eq.mp h' with hlt'' | rfl
      · exact hlast q'' h hlt''
      · exact hp

private theorem last_star_unique {q' e' : Nat} (hq : q < p) (hend : endAt rd file q = some e)
    (hlast : ∀ q'', q < q'' → q'' < p → endAt rd file q'' = none) (hq' : q' < p)
    (hend' : endAt rd file q' = some e')
    (hlast' : ∀ q'', q' < q'' → q'' < p → endAt rd file q'' = none) : e = e' := by
  rcases lt_trichotomy q q' with hlt | rfl | hgt
  · rw [hlast q' hlt hq'] at hend'
    cases hend'
  · exact some.inj (hend.symm.trans hend')
  · rw [hlast' q hgt hq] at hend
    cases hend

end Star

/-! ## When the position is right -/

section Right

/-- The position is the end of a command, and the last command that can be read
from a star inside it, if there is one, ends there too. -/
def EndsClean (rd : CommandReader) (log : List (List Bytes)) (p : Nat) : Prop :=
  ∃ before args after, log = before ++ args :: after ∧
    (before.flatMap encodeCommand).length + (encodeCommand args).length = p ∧
    ∀ q e, (before.flatMap encodeCommand).length < q → q < p →
      endAt rd (log.flatMap encodeCommand) q = some e →
      (∀ q', q < q' → q' < p → endAt rd (log.flatMap encodeCommand) q' = none) → e = p

/-- The position lies in a command or at its end, and the last command that can
be read from a star inside it, up to the position, ends there too. -/
def EndsIn (rd : CommandReader) (before : List (List Bytes)) (args : List Bytes)
    (after : List (List Bytes)) (p : Nat) : Prop :=
  let file := (before ++ args :: after).flatMap encodeCommand
  let pos := (before.flatMap encodeCommand).length + (encodeCommand args).length
  (before.flatMap encodeCommand).length < p ∧ p ≤ pos ∧
    ∀ q e, (before.flatMap encodeCommand).length < q → q < p → endAt rd file q = some e →
      (∀ q', q < q' → q' < p → endAt rd file q' = none) → e = pos

variable {rd : CommandReader} {log : List (List Bytes)} {p pos : Nat}

theorem EndsIn.getEnd {before after : List (List Bytes)} {args : List Bytes} (hargs : args ≠ [])
    (h : EndsIn rd before args after p) :
    getEndOfLastValuePositionInFile rd ((before ++ args :: after).flatMap encodeCommand) p =
      some ((before.flatMap encodeCommand).length + (encodeCommand args).length) := by
  obtain ⟨hlow, hhigh, hinside⟩ := h
  have hp : p ≤ ((before ++ args :: after).flatMap encodeCommand).length := by
    simp only [flatMap_append, flatMap_cons, length_append]
    omega
  have hstar := endAt_command rd before after hargs
  obtain ⟨q, e, hle, hlt, hend, hlast⟩ := exists_last_star hlow hstar
  rw [getEndOfLastValuePositionInFile_eq_some hp]
  rcases hle.eq_or_lt with rfl | hgt
  · exact ⟨_, hlt, hstar, hlast⟩
  · refine ⟨q, hlt, ?_, hlast⟩
    rw [hend, hinside q e hgt hlt hend hlast]

theorem EndsClean.getEnd (hlog : ∀ args ∈ log, args ≠ []) (h : EndsClean rd log p) :
    getEndOfLastValuePositionInFile rd (log.flatMap encodeCommand) p = some p := by
  obtain ⟨before, args, after, rfl, rfl, hinside⟩ := h
  obtain ⟨bytes, hbytes⟩ := encodeCommand_eq_cons args
  have hlen : 0 < (encodeCommand args).length := by
    rw [hbytes]
    simp
  exact EndsIn.getEnd (hlog args (by simp)) ⟨Nat.lt_add_of_pos_right hlen, le_rfl, hinside⟩

/-- A boundary up to the position is only returned when the position is clean. -/
theorem endsClean_of_getEnd (hlog : ∀ args ∈ log, args ≠ []) (hpos : 0 < p)
    (hp : p ≤ (log.flatMap encodeCommand).length)
    (hget : getEndOfLastValuePositionInFile rd (log.flatMap encodeCommand) p = some pos)
    (hmem : pos ∈ boundaries log) (hle : pos ≤ p) : EndsClean rd log p := by
  obtain ⟨before, args, after, rfl, hlow, hhigh⟩ := exists_command_at hpos hp
  have hstar := endAt_command rd before after (hlog args (by simp))
  obtain ⟨q, hq, hend, hlast⟩ := (getEndOfLastValuePositionInFile_eq_some hp).mp hget
  -- the star of this command can be read from, so the last star is not before it
  have hstart : (before.flatMap encodeCommand).length ≤ q := by
    by_contra hlt
    rw [hlast _ (not_le.mp hlt) hlow] at hstar
    cases hstar
  have hend_ge : (before.flatMap encodeCommand).length + (encodeCommand args).length ≤ pos := by
    rcases hstart.eq_or_lt with rfl | hgt
    · exact (some.inj (hstar.symm.trans hend)).le
    rcases le_or_ge_of_mem_boundaries hmem with hbefore | hafter
    · have := le_of_endAt hend
      omega
    · exact hafter
  refine ⟨before, args, after, rfl, by omega, fun q' e' _ hlt' hend' hlast' => ?_⟩
  rw [last_star_unique hlt' hend' hlast' hq hend hlast]
  omega

/-- **The function returns the last boundary up to a position if and only if
the position is the end of a command, and the last command that can be read
from a star inside it, if there is one, ends there too.  Under the same
condition alone `followCheckSome` keeps whole commands and nothing behind the
position up to which it has compared.** -/
theorem lastValue_iff {N G D : Type} [LinearOrder N] [DecidableEq D] (lib : ServerLib N G)
    (hlib : HookLib G) (flib : FollowLib D) (now : Int) (hlog : ∀ args ∈ log, args ≠ [])
    (hpos : 0 < p) (hp : p ≤ (log.flatMap encodeCommand).length) :
    ((∃ pos, getEndOfLastValuePositionInFile flib.multiBulk (log.flatMap encodeCommand) p =
        some pos ∧ IsGreatest (boundaries log ∩ Set.Iic p) pos) ↔
      EndsClean flib.multiBulk log p) ∧
    ∀ (leader : Bytes) (f f₁ : Follower G) (pos : Nat), f.aof = log.flatMap encodeCommand →
      f.aofsz = f.aof.length → checksumsz ≤ f.aof.length →
      matchChecksums flib.md5 leader f 0 checksumsz = true →
      checkLoop (fun p => matchChecksums flib.md5 leader f p.toNat checksumsz) checksumsz
        (f.aof.length - checksumsz) f.aof.length = p →
      followCheckSome lib hlib flib now leader f = .ok (pos, f₁) →
      (pos ∈ boundaries log ∧ pos ≤ p ↔ EndsClean flib.multiBulk log p) := by
  have hclean : EndsClean flib.multiBulk log p → p ∈ boundaries log := by
    rintro ⟨before, args, after, rfl, rfl, -⟩
    exact end_mem_boundaries
  constructor
  · constructor
    · rintro ⟨pos, hget, hgreatest⟩
      exact endsClean_of_getEnd hlog hpos hp hget hgreatest.1.1 hgreatest.1.2
    · intro h
      exact ⟨p, h.getEnd hlog, ⟨hclean h, Set.mem_Iic.mpr le_rfl⟩, fun b hb => hb.2⟩
  · intro leader f f₁ pos haof hsz hlarge hmatch hloop hcheck
    have hget : getEndOfLastValuePositionInFile flib.multiBulk (log.flatMap encodeCommand) p =
        some pos := by
      rcases followCheckSome_cases hsz hcheck with
        ⟨hsmall, -⟩ | ⟨-, hnomatch, -⟩ | ⟨fullpos, -, -, hfull, hend, -⟩
      · omega
      · rw [hmatch] at hnomatch
        cases hnomatch
      · rw [hloop] at hfull
        rw [← haof, Int.ofNat.inj hfull]
        exact hend
    constructor
    · rintro ⟨hmem, hle⟩
      exact endsClean_of_getEnd hlog hpos hp hget hmem hle
    · intro h
      rw [h.getEnd hlog] at hget
      cases hget
      exact ⟨hclean h, le_rfl⟩

end Right

/-! ### The small instance -/

/-- Two commands without a star in their arguments. -/
def twoSets : List (List Bytes) :=
  [[lit "SET", lit "fleet", lit "truck1", lit "STRING", lit "idle"],
    [lit "SET", lit "fleet", lit "truck2", lit "STRING", lit "full"]]

theorem lastValue_iff_between :
    ∃ pos, getEndOfLastValuePositionInFile respReader (twoSets.flatMap encodeCommand) 58 =
      some pos ∧ IsGreatest (boundaries twoSets ∩ Set.Iic 58) pos := by
  have hstars : ∀ q < 58, 0 < q →
      endAt respReader (twoSets.flatMap encodeCommand) q = none := by decide +kernel
  refine (lastValue_iff (p := 58) textLib noHooks textFollow 0 (by decide) (by decide)
    (by decide +kernel)).1.mpr ?_
  refine ⟨[], _, _, rfl, by decide +kernel, fun q e hpos hlt hend _ => ?_⟩
  cases (hstars q hlt hpos).symm.trans hend

/-- **From inside the second command the end of that command is returned.  A
command that has the text of a command in an argument is cut there.** -/
theorem lastValue_straddles :
    (getEndOfLastValuePositionInFile respReader (twoSets.flatMap encodeCommand) 60 = some 116 ∧
      ¬ IsGreatest (boundaries twoSets ∩ Set.Iic 60) 116) ∧
    let log := [[lit "SET", lit "fleet", lit "truck1", lit "STRING", lit "*1\r\n$1\r\nx\r\n--"]]
    getEndOfLastValuePositionInFile respReader (log.flatMap encodeCommand) 68 = some 64 ∧
      ¬ IsGreatest (boundaries log ∩ Set.Iic 68) 64 := by
  refine ⟨⟨by decide +kernel, fun hgreatest => ?_⟩, by decide +kernel, fun hgreatest => ?_⟩
  · exact absurd (Set.mem_Iic.mp hgreatest.1.2) (by decide)
  · have hwhole := hgreatest.2 ⟨⟨_, prefix_refl _, by decide +kernel⟩, Set.mem_Iic.mpr le_rfl⟩
    exact absurd hwhole (by decide)

end SpatialDb.Server
