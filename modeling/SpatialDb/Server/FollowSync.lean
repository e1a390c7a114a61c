import SpatialDb.Server.CheckSome
import SpatialDb.Server.LastValue

/-!
# Which followers converge

`followCheckSome` keeps the data at position zero, takes all blocks before an
equal one for equal, and keeps the command in which its search has ended.  A
follower has the leader's data in the end if none of this does harm.
-/

namespace SpatialDb.Server

open Lib List OrdMap

section Sync

variable {N G D : Type} [LinearOrder N] [DecidableEq D] (lib : ServerLib N G) (hlib : HookLib G)
  (docs : List Bytes) (now : Int)

/-- No data, and a log that is small or begins otherwise than the leader's. -/
def Fresh (leader : Bytes) (f : Follower G) : Prop :=
  f.st.cols = empty ∧ (f.aof.length < checksumsz ∨ commonLength f.aof leader < checksumsz)

/-- The leader's log goes on with `after`, whose commands act object by object
and were in effect, on clean fields: they can be run once more. -/
structure Repeatable (before after theirs : List (List Bytes)) : Prop where
  beginning : before ++ after <+: theirs
  lines : ∀ args ∈ after, SafeLine lib docs args
  effective : ∀ s : ServerState G, replay lib hlib now before ServerState.empty = .ok s →
    GoodData lib docs s.cols ∧ Effective lib hlib now after s

/-- How far halving gets in a file of `size` bytes with `common` good ones. -/
def searchEnd (size common : Nat) : Int :=
  checkLoop (fun p => decide (p + checksumsz ≤ (common : Int))) checksumsz (size - checksumsz) size

/-- The blocks that are compared on the way there. -/
def comparedBlocks (size common : Nat) : List Int :=
  loopBlocks (fun p => decide (p + checksumsz ≤ (common : Int))) checksumsz (size - checksumsz) size

/-- The logs begin with the same block, no block that is compared is the same
behind a difference, and the own command in which the search ends is also the
leader's.  If the search ends where the command ends, nothing more is behind it,
or what is behind it can be run again. -/
structure Searched (rd : CommandReader) (own theirs : List (List Bytes)) (aof leader : Bytes) :
    Prop where
  first : checksumsz ≤ commonLength aof leader
  solid : ∀ p ∈ comparedBlocks aof.length (commonLength aof leader),
    (leader.drop p.toNat).take checksumsz = (aof.drop p.toNat).take checksumsz →
      p + checksumsz ≤ commonLength aof leader
  stop : ∃ before args after, own = before ++ args :: after ∧
    EndsIn rd before args after (searchEnd aof.length (commonLength aof leader)).toNat ∧
    ((before ++ [args]).flatMap encodeCommand).length ≤ commonLength aof leader ∧
    (((before ++ [args]).flatMap encodeCommand).length =
        searchEnd aof.length (commonLength aof leader) →
      after = [] ∨ Repeatable lib hlib docs now (before ++ [args]) after theirs)

variable {lib hlib docs now} {flib : FollowLib D} {leader : Bytes} {f f₁ : Follower G} {pos : Nat}
  {own theirs : List (List Bytes)} {sL : ServerState G} {f₂ : Follower G}

omit [DecidableEq D] in
/-- A reload that keeps the whole truncated file has run the commands up to a
boundary. -/
theorem replay_of_reload (hown : ∀ args ∈ own, args ≠ []) {s st : ServerState G}
    (hpos : pos ≤ (own.flatMap encodeCommand).length) (h : loadAOF lib hlib flib.nextCommand now
      (flib.packets ((own.flatMap encodeCommand).take pos)) [] ⟨s, 0⟩ = .ok ⟨st, pos⟩) :
    ∃ before after, own = before ++ after ∧ (before.flatMap encodeCommand).length = pos ∧
      replay lib hlib now before s = .ok st := by
  have hflatten := flib.packets_flatten ((own.flatMap encodeCommand).take pos)
  generalize flib.packets ((own.flatMap encodeCommand).take pos) = packets at h hflatten
  have hdata : packets.flatten ++ (own.flatMap encodeCommand).drop pos =
      own.flatMap encodeCommand := by
    rw [hflatten, take_append_drop]
  obtain ⟨before, after, rest, rfl, hbytes, hrest⟩ := flatMap_split flib.nextCommand hown hdata
  have hlength : packets.flatten.length = pos := by
    rw [hflatten, length_take, min_eq_left hpos]
  rw [loadAOF_eq_replay _ s 0 (fun a ha => hown a (mem_append_left _ ha)) hrest hbytes,
    hlength] at h
  cases hrun : replay lib hlib now before s with
  | error e =>
    rw [hrun] at h
    cases h
  | ok st' =>
    rw [hrun] at h
    simp only [Except.map, Except.ok.injEq, Loaded.mk.injEq, Nat.zero_add] at h
    refine ⟨before, after, rfl, ?_, by rw [hrun, h.1]⟩
    have htotal := congrArg List.length hbytes
    rw [hlength, length_append] at htotal
    omega

/-- A fresh follower begins at the beginning, with its data. -/
theorem Fresh.begins (hfresh : Fresh leader f) (hsz : f.aofsz = f.aof.length)
    (hmd5 : Trusted flib.md5 leader f.aof)
    (hcheck : followCheckSome lib hlib flib now leader f = .ok (pos, f₁)) :
    pos = 0 ∧ f₁.st.cols = empty := by
  obtain ⟨hcols, hdiffers⟩ := hfresh
  rcases followCheckSome_cases hsz hcheck with
    ⟨-, hpos, rfl⟩ | ⟨-, -, hpos, hst⟩ | ⟨_, hmatch, hle, -⟩
  · exact ⟨hpos, hcols⟩
  · exact ⟨hpos, by rw [hst, hcols]⟩
  · obtain ⟨hown, htheirs, hblock⟩ := (hmd5.match_iff hsz 0).mp hmatch
    rw [Nat.zero_add] at hown htheirs
    rw [drop_zero, drop_zero] at hblock
    have hcommon := le_commonLength_iff.mpr ⟨hown, htheirs, hblock.symm⟩
    rcases hdiffers with h | h <;> omega

/-- Blocks match up to the first difference, so the search depends on its place
alone. -/
theorem Searched.checkLoop_eq {rd : CommandReader}
    (h : Searched lib hlib docs now rd own theirs f.aof leader)
    (hsz : f.aofsz = f.aof.length) (hmd5 : Trusted flib.md5 leader f.aof) :
    checkLoop (fun p => matchChecksums flib.md5 leader f p.toNat checksumsz) checksumsz
      (f.aof.length - checksumsz) f.aof.length =
        searchEnd f.aof.length (commonLength f.aof leader) := by
  refine checkLoop_congr fun p hp => ?_
  have hsolid := h.solid p hp
  obtain ⟨hpos, -⟩ := loopBlocks_inside (by decide) p hp
  obtain ⟨p, rfl⟩ := Int.eq_ofNat_of_zero_le hpos
  rw [Bool.eq_iff_iff, Int.toNat_natCast, hmd5.match_iff hsz p, decide_eq_true_iff]
  constructor
  · rintro ⟨-, -, hblock⟩
    exact hsolid hblock
  · intro hle
    have hle : p + checksumsz ≤ commonLength f.aof leader := by exact_mod_cast hle
    obtain ⟨hown, htheirs, htake⟩ := le_commonLength_iff.mp hle
    refine ⟨hown, htheirs, ?_⟩
    have hdrop := congrArg (List.drop p) htake
    rw [drop_take, drop_take, Nat.add_sub_cancel_left] at hdrop
    exact hdrop.symm

/-- Commands that fill the common beginning are the leader's first commands. -/
theorem prefix_of_le_commonLength {before : List (List Bytes)} (hbefore : before <+: own)
    (h : (before.flatMap encodeCommand).length ≤
      commonLength (own.flatMap encodeCommand) (theirs.flatMap encodeCommand)) :
    before <+: theirs := by
  obtain ⟨after, rfl⟩ := hbefore
  obtain ⟨-, -, htake⟩ := le_commonLength_iff.mp h
  refine prefix_of_flatMap_encodeCommand ?_
  rw [flatMap_append, take_left] at htake
  rw [htake]
  exact take_prefix _ _

omit [DecidableEq D] in
/-- The commands after a boundary, once more over the data of the whole log. -/
theorem Repeatable.sameData (hspec : lib.ReadsSpecials) {before after : List (List Bytes)}
    (h : Repeatable lib hlib docs now before after theirs) (htheirs : ∀ args ∈ theirs, args ≠ [])
    (hlocal : replay lib hlib now (before ++ after) ServerState.empty = .ok f.st)
    (hleader : replay lib hlib now theirs ServerState.empty = .ok sL)
    (hstream : followFrom lib hlib flib now (theirs.flatMap encodeCommand)
      (before.flatMap encodeCommand).length f = .ok (f₂, [])) : SameData f₂.st.cols sL.cols := by
  obtain ⟨⟨rest, rfl⟩, hlines, heffect⟩ := h
  obtain ⟨s₁, hbefore, hafter⟩ := replay_append_eq_ok hlocal
  obtain ⟨s₂, hown, hlast⟩ := replay_append_eq_ok hleader
  rw [hlocal] at hown
  cases hown
  obtain ⟨hgood, heffective⟩ := heffect s₁ hbefore
  rw [append_assoc] at hstream htheirs
  exact replay_again hspec (noEmpty_of_replay noEmpty_empty hbefore) hgood hlines hafter heffective
    hlast (replay_of_followFrom before (fun a ha => htheirs a (mem_append_right _ ha)) hstream)

omit [DecidableEq D] in
/-- The leader's first commands over no data, and then all the others. -/
theorem sameData_of_stream {before : List (List Bytes)} (hbefore : before <+: theirs)
    (htheirs : ∀ args ∈ theirs, args ≠ []) {s : ServerState G} (hcols : s.cols = empty)
    (hrun : replay lib hlib now before s = .ok f.st)
    (hleader : replay lib hlib now theirs ServerState.empty = .ok sL)
    (hstream : followFrom lib hlib flib now (theirs.flatMap encodeCommand)
      (before.flatMap encodeCommand).length f = .ok (f₂, [])) : SameData f₂.st.cols sL.cols := by
  obtain ⟨rest, rfl⟩ := hbefore
  have hne : NoEmpty s.cols := hcols ▸ noEmpty_empty
  have hall : replay lib hlib now (before ++ rest) s = .ok f₂.st := by
    rw [replay_append, hrun]
    exact replay_of_followFrom before (fun a ha => htheirs a (mem_append_right _ ha)) hstream
  exact replay_sameData hne noEmpty_empty (hcols ▸ ⟨fun _ => rfl, fun _ _ => rfl⟩) hall hleader

omit [DecidableEq D] in
/-- The log is cut at a boundary in the common beginning, and loaded again. -/
theorem sameData_of_reload (hown : ∀ args ∈ own, args ≠ []) (htheirs : ∀ args ∈ theirs, args ≠ [])
    {s : ServerState G} (hcols : s.cols = empty)
    (hleader : replay lib hlib now theirs ServerState.empty = .ok sL)
    (hpos : pos ≤ (own.flatMap encodeCommand).length)
    (hcommon : pos ≤ commonLength (own.flatMap encodeCommand) (theirs.flatMap encodeCommand))
    (hload : loadAOF lib hlib flib.nextCommand now
      (flib.packets ((own.flatMap encodeCommand).take pos)) [] ⟨s, 0⟩ = .ok ⟨f₁.st, pos⟩)
    (hstream : followFrom lib hlib flib now (theirs.flatMap encodeCommand) pos f₁ = .ok (f₂, [])) :
    SameData f₂.st.cols sL.cols := by
  obtain ⟨before, after, hsplit, rfl, hbefore⟩ := replay_of_reload hown hpos hload
  exact sameData_of_stream (prefix_of_le_commonLength ⟨after, hsplit.symm⟩ hcommon) htheirs hcols
    hbefore hleader hstream

/-- **A follower that is fresh, or has the beginning of the leader's log and
can run it again, or is cut where its log agrees with the leader's: when it has
applied the leader's commands from the position that `followCheckSome` has
chosen, its data are those of the whole log of the leader.** -/
theorem follow_sync (hspec : lib.ReadsSpecials) (hown : ∀ args ∈ own, args ≠ [])
    (htheirs : ∀ args ∈ theirs, args ≠ [])
    (hlocal : replay lib hlib now own ServerState.empty = .ok f.st)
    (hleader : replay lib hlib now theirs ServerState.empty = .ok sL)
    (haof : f.aof = own.flatMap encodeCommand) (hsz : f.aofsz = f.aof.length)
    (hmd5 : Trusted flib.md5 (theirs.flatMap encodeCommand) f.aof)
    (hsafe : Fresh (theirs.flatMap encodeCommand) f ∨
      f.aof.length < checksumsz ∧ Repeatable lib hlib docs now [] own theirs ∨
      Searched lib hlib docs now flib.multiBulk own theirs f.aof (theirs.flatMap encodeCommand))
    (hcheck : followCheckSome lib hlib flib now (theirs.flatMap encodeCommand) f = .ok (pos, f₁))
    (hstream : followFrom lib hlib flib now (theirs.flatMap encodeCommand) pos f₁ = .ok (f₂, [])) :
    SameData f₂.st.cols sL.cols := by
  rcases hsafe with hfresh | ⟨hsmall, hrepeat⟩ | hsearched
  · obtain ⟨rfl, hcols⟩ := hfresh.begins hsz hmd5 hcheck
    exact sameData_of_stream nil_prefix htheirs hcols rfl hleader hstream
  · rcases followCheckSome_cases hsz hcheck with
      ⟨-, rfl, rfl⟩ | ⟨hle, -⟩ | ⟨_, -, hle, -⟩
    · exact hrepeat.sameData hspec htheirs hlocal hleader hstream
    · omega
    · omega
  · obtain ⟨hlarge, hlong, htake⟩ := le_commonLength_iff.mp hsearched.first
    rcases followCheckSome_cases hsz hcheck with
      ⟨hsmall, -⟩ | ⟨-, hnomatch, -⟩ | ⟨fullpos, -, -, hfull, hend, hexit⟩
    · omega
    · have hmatch := (hmd5.match_iff hsz 0).mpr
        ⟨by omega, by omega, by rw [drop_zero, drop_zero, htake]⟩
      cases hmatch.symm.trans hnomatch
    · rw [hsearched.checkLoop_eq hsz hmd5] at hfull
      obtain ⟨before, args, after, rfl, hends, hcommon, hstop⟩ := hsearched.stop
      rw [hfull] at hends hstop
      -- the search ends in this command, whose end is taken
      have hget := hends.getEnd (hown args (by simp))
      rw [Int.toNat_natCast, ← haof, hend] at hget
      have hpos : pos = ((before ++ [args]).flatMap encodeCommand).length := by
        simpa using hget
      subst hpos
      have happend : before ++ args :: after = before ++ [args] ++ after := by simp
      rw [haof] at hcommon
      rw [happend] at hlocal hcommon haof hown
      rcases hexit with ⟨hfullpos, rfl⟩ | hload
      · rcases hstop (by exact_mod_cast hfullpos) with rfl | hrepeat
        · -- the whole log is the leader's
          rw [append_nil] at hlocal hcommon
          exact sameData_of_stream (prefix_of_le_commonLength (prefix_refl _) hcommon) htheirs rfl
            hlocal hleader hstream
        · exact hrepeat.sameData hspec htheirs hlocal hleader hstream
      · rw [haof] at hload hend
        exact sameData_of_reload hown htheirs rfl hleader (getEndOfLastValuePositionInFile_le hend)
          hcommon hload hstream

end Sync

/-! ### The small instance -/

theorem follow_sync_reconnects :
    let own := [[lit "SET", lit "fleet", lit "truck1", lit "STRING", lit "idle"]]
    let theirs := own ++ [[lit "SET", lit "fleet", lit "truck2", lit "STRING", lit "full"]]
    ∃ f sL, followed own theirs = .ok (f, []) ∧
      replay textLib noHooks 0 theirs ServerState.empty = .ok sL ∧ SameData f.st.cols sL.cols := by
  intro own theirs
  have hlines : ∀ args ∈ own, SafeLine textLib [] args := by decide +kernel
  have heffect : Effective textLib noHooks 0 own ServerState.empty := by decide +kernel
  have hruns : ∀ s, replay textLib noHooks 0 [] ServerState.empty = .ok s →
      GoodData textLib [] s.cols ∧ Effective textLib noHooks 0 own s := by
    intro s hs
    cases hs
    exact ⟨fun _ _ h => absurd h (by simp [lookup, ServerState.empty]), heffect⟩
  have hsmall : (own.flatMap encodeCommand).length < checksumsz := by decide +kernel
  obtain ⟨st, sL, hst, hsL⟩ : ∃ st sL, replay textLib noHooks 0 own ServerState.empty = .ok st ∧
      replay textLib noHooks 0 theirs ServerState.empty = .ok sL := ⟨_, _, rfl, rfl⟩
  obtain ⟨p, hcheck⟩ : ∃ p,
      followCheckSome textLib noHooks textFollow 0 (theirs.flatMap encodeCommand)
        ⟨st, own.flatMap encodeCommand, (own.flatMap encodeCommand).length⟩ = .ok p := ⟨_, rfl⟩
  have hfrom : followed own theirs =
      followFrom textLib noHooks textFollow 0 (theirs.flatMap encodeCommand) p.1 p.2 := by
    simp only [followed, hst, bind, Except.bind, hcheck]
  have hdone : (followed own theirs).toOption.map Prod.snd = some [] := by decide +kernel
  rw [hfrom] at hdone ⊢
  cases hstream : followFrom textLib noHooks textFollow 0
      (theirs.flatMap encodeCommand) p.1 p.2 with
  | error e =>
    rw [hstream] at hdone
    cases hdone
  | ok r =>
    obtain ⟨f, left⟩ := r
    rw [hstream] at hdone
    cases hdone
    exact ⟨f, sL, rfl, hsL, follow_sync ⟨by decide, by decide, by decide⟩ (by decide) (by decide)
      hst hsL rfl rfl (fun _ h => h) (.inr (.inl ⟨hsmall, prefix_append _ _, hlines, hruns⟩))
      hcheck hstream⟩

/-- **A follower with a small log of its own is not reset: what only its own
history has put there is still there when it has applied all the commands of
the leader.** -/
theorem follow_keeps_own :
    let own := [[lit "SET", lit "fleet", lit "truck1", lit "STRING", lit "idle"]]
    let theirs := [[lit "SET", lit "fleet", lit "truck2", lit "STRING", lit "full"]]
    let truck1 (s : ServerState Unit) := (lookup s.cols (lit "fleet", lit "truck1")).isSome
    (followed own theirs).toOption.map (fun r => (truck1 r.1.st, r.2)) = some (true, []) ∧
      (replay textLib noHooks 0 theirs ServerState.empty).toOption.map truck1 = some false := by
  decide +kernel

end SpatialDb.Server
