import SpatialDb.Server.Replay

/-!
# Following a leader

Model of `followCheckSome` and the functions under it (`checksum.go`), and of
the commands that a follower then reads from its leader (`follow.go`).  The
connection does not fail, the leader's file does not change meanwhile, and all
commands meet one clock.
-/

namespace SpatialDb.Server

open Lib List

/-! ## Model -/

def checksumsz : Nat := 512 * 1024

/-- What following takes from libraries and the system. -/
structure FollowLib (D : Type) where
  md5 : Bytes → D
  /-- `ReadMultiBulk` of the resp reader. -/
  multiBulk : CommandReader
  /-- `redcon.ReadNextCommand`. -/
  nextCommand : CommandReader
  /-- The pieces in which a file is read. -/
  packets : Bytes → List Bytes
  packets_flatten : ∀ file, (packets file).flatten = file

/-- A follower: its data, its file and the size it has noted. -/
structure Follower (G : Type) where
  st : ServerState G
  aof : Bytes
  aofsz : Nat

section

variable {N G D : Type} [LinearOrder N] [DecidableEq D]

/-- `checksum` of a part of a file; nothing is EOF. -/
def checksum (md5 : Bytes → D) (aof : Bytes) (aofsz pos size : Nat) : Option D :=
  if aofsz < pos + size then none
  else if size = 0 then
    if aofsz ≤ pos then none else some (md5 [])
  else if aof.length < pos + size then none
  else some (md5 ((aof.drop pos).take size))

def matchChecksums {G : Type} (md5 : Bytes → D) (leader : Bytes) (f : Follower G)
    (pos size : Nat) : Bool :=
  match checksum md5 f.aof f.aofsz pos size with
  | none => false
  | some sum =>
    match checksum md5 leader leader.length pos size with
    | none => false
    | some csum => csum = sum

/-- The loop of `followCheckSome`.  `limit` is never below `min`, so that the
division of the source rounds like this one. -/
def checkLoop (matched : Int → Bool) (min max limit : Int) : Int :=
  if max < min ∨ limit < max + checksumsz then min
  else if matched max then
    let min := max + checksumsz
    checkLoop matched min ((limit - min) / 2 - checksumsz / 2 + min) limit
  else
    let limit := max
    checkLoop matched min ((limit - min) / 2 - checksumsz / 2 + min) limit
termination_by (limit - min).toNat
decreasing_by
  all_goals
    unfold checksumsz at *
    omega

/-- The position that the search of `followCheckSome` ends at. -/
def searchPos {G : Type} (md5 : Bytes → D) (leader : Bytes) (f : Follower G) : Int :=
  let matched (pos : Int) := matchChecksums md5 leader f pos.toNat checksumsz
  if matched 0 then checkLoop matched checksumsz (f.aofsz - checksumsz) f.aofsz else 0

/-- From `startPos` backwards to a star that begins a complete command; its
end. -/
def getEndOfLastValuePositionInFile (rd : CommandReader) (file : Bytes) :
    (startPos : Nat) → Option Nat
  | 0 => none
  | pos + 1 =>
    match file[pos]? with
    | none => none
    | some c =>
      if c = 42 then
        match rd.read (file.drop pos) with
        | .done _ rest => some (pos + ((file.length - pos) - rest.length))
        | _ => getEndOfLastValuePositionInFile rd file pos
      else getEndOfLastValuePositionInFile rd file pos

/-- `os.Truncate`, which also extends. -/
def truncate (file : Bytes) (size : Nat) : Bytes :=
  file.take size ++ List.replicate (size - file.length) 0

/-- `reset`: the collections and the size, not the hooks. -/
def Follower.reset {G : Type} (f : Follower G) : Follower G :=
  { f with st := { f.st with cols := OrdMap.empty }, aofsz := 0 }

variable (lib : ServerLib N G) (hlib : HookLib G) (flib : FollowLib D) (now : Int)

/-- The position from which to follow, and the follower then. -/
def followCheckSome (leader : Bytes) (f : Follower G) : Except Err (Nat × Follower G) :=
  if f.aofsz < checksumsz then .ok (0, f)
  else
    let fullpos := searchPos flib.md5 leader f
    if fullpos = 0 then .ok (0, { f with aof := [] })
    else
      match getEndOfLastValuePositionInFile flib.multiBulk f.aof fullpos.toNat with
      | none => .error (.other (lit "EOF"))
      | some pos =>
        if pos = fullpos then .ok (pos, f)
        else
          let aof := truncate f.aof pos
          let f := f.reset
          match loadAOF lib hlib flib.nextCommand now (flib.packets aof) [] ⟨f.st, f.aofsz⟩ with
          | .error e => .error e
          | .ok x =>
            if x.aofsz ≠ pos then
              .error (.other (lit "aof size mismatch during reload, possible data loss."))
            else .ok (pos, ⟨x.st, aof, x.aofsz⟩)

def followHandleCommand (f : Follower G) (args : List Bytes) : Except Err (Follower G) :=
  match command lib hlib { out := .null, now } [] f.st args with
  | (.ok _ d, st) =>
    if d.updated && commandName args ≠ lit "publish" then
      .ok ⟨st, f.aof ++ encodeCommand args, f.aofsz + (encodeCommand args).length⟩
    else .ok { f with st }
  | (.err e, st) => if commandErrIsFatal e then .error e else .ok { f with st }
  | (.crash, _) => .error (.other (lit "nil dereference"))

/-- The end of `followStep`: commands from the leader, one after the other, as
far as they have come. -/
def followLoop (rd : CommandReader) : Nat → Bytes → Follower G → Except Err (Follower G × Bytes)
  | 0, data, f => .ok (f, data)
  | fuel + 1, data, f =>
    match rd.read data with
    | .bad => .error (.other (lit "invalid multibulk"))
    | .more => .ok (f, data)
    | .done args rest =>
      match followHandleCommand lib hlib now f args with
      | .error e => .error e
      | .ok f => followLoop rd fuel rest f

/-- AOF with a position, and all the bytes that the leader sends; what is left
of them is an incomplete command. -/
def followFrom (leader : Bytes) (pos : Nat) (f : Follower G) : Except Err (Follower G × Bytes) :=
  if leader.length < pos then
    .error (.other (lit "pos is too big, must be less that the aof_size of leader"))
  else followLoop lib hlib now flib.multiBulk ((leader.drop pos).length + 1) (leader.drop pos) f

/-! ## Positions -/

variable {matched : Int → Bool} {min max limit : Int}

theorem le_checkLoop (matched : Int → Bool) (min max limit : Int) :
    min ≤ checkLoop matched min max limit := by
  fun_induction checkLoop matched min max limit with
  | case1 min max limit h => exact le_rfl
  | case2 min max limit h hmatch next ih => omega
  | case3 min max limit h hmatch next ih => exact ih

variable {pos size : Nat} {md5 : Bytes → D}

omit [DecidableEq D] in
theorem checksum_of_le (md5 : Bytes → D) {aof : Bytes} (hsize : size ≠ 0)
    (h : pos + size ≤ aof.length) :
    checksum md5 aof aof.length pos size = some (md5 ((aof.drop pos).take size)) := by
  rw [checksum, if_neg (by omega), if_neg hsize, if_neg (by omega)]

omit [DecidableEq D] in
theorem checksum_eq_some {aof : Bytes} {aofsz : Nat} {sum : D} (hsize : size ≠ 0)
    (h : checksum md5 aof aofsz pos size = some sum) :
    pos + size ≤ aof.length ∧ sum = md5 ((aof.drop pos).take size) := by
  rw [checksum, if_neg hsize] at h
  split at h
  · cases h
  split at h
  · cases h
  rename_i hle
  cases h
  exact ⟨not_lt.mp hle, rfl⟩

theorem matchChecksums_iff {leader : Bytes} {f : Follower G} (hsize : size ≠ 0)
    (hsz : f.aofsz = f.aof.length)
    (hmd5 : md5 ((leader.drop pos).take size) = md5 ((f.aof.drop pos).take size) →
      (leader.drop pos).take size = (f.aof.drop pos).take size) :
    matchChecksums md5 leader f pos size = true ↔
      pos + size ≤ f.aof.length ∧ pos + size ≤ leader.length ∧
        (leader.drop pos).take size = (f.aof.drop pos).take size := by
  constructor
  · intro h
    unfold matchChecksums at h
    split at h
    · cases h
    rename_i sum hsum
    split at h
    · cases h
    rename_i csum hcsum
    obtain ⟨hown, rfl⟩ := checksum_eq_some hsize hsum
    obtain ⟨htheirs, rfl⟩ := checksum_eq_some hsize hcsum
    exact ⟨hown, htheirs, hmd5 (of_decide_eq_true h)⟩
  · rintro ⟨hown, htheirs, hblock⟩
    rw [matchChecksums, hsz, checksum_of_le md5 hsize hown, checksum_of_le md5 hsize htheirs,
      hblock]
    exact decide_eq_true rfl

/-- Equal checksums of blocks at the same offset mean equal blocks. -/
def Trusted (md5 : Bytes → D) (a b : Bytes) : Prop :=
  ∀ p, md5 ((a.drop p).take checksumsz) = md5 ((b.drop p).take checksumsz) →
    (a.drop p).take checksumsz = (b.drop p).take checksumsz

theorem Trusted.match_iff {leader : Bytes} {f : Follower G} (hmd5 : Trusted md5 leader f.aof)
    (hsz : f.aofsz = f.aof.length) (pos : Nat) :
    matchChecksums md5 leader f pos checksumsz = true ↔
      pos + checksumsz ≤ f.aof.length ∧ pos + checksumsz ≤ leader.length ∧
        (leader.drop pos).take checksumsz = (f.aof.drop pos).take checksumsz :=
  matchChecksums_iff (by decide) hsz (hmd5 pos)

theorem getEndOfLastValuePositionInFile_le {rd : CommandReader} {file : Bytes} {startPos : Nat}
    (h : getEndOfLastValuePositionInFile rd file startPos = some pos) : pos ≤ file.length := by
  induction startPos with
  | zero => cases h
  | succ p ih =>
    rw [getEndOfLastValuePositionInFile] at h
    split at h
    · cases h
    rename_i c hc
    have hp : p < file.length := (List.getElem?_eq_some_iff.mp hc).1
    split at h
    · split at h
      · cases h
        omega
      · exact ih h
    · exact ih h

theorem truncate_of_le {file : Bytes} (h : size ≤ file.length) :
    truncate file size = file.take size := by
  rw [truncate, Nat.sub_eq_zero_of_le h, replicate_zero, append_nil]

end

/-! ## Reading commands -/

section Reading

variable {N G : Type} [LinearOrder N] {lib : ServerLib N G} {hlib : HookLib G} {now : Int}

/-- A command has the same effect on the data as in a load. -/
theorem followHandleCommand_st (f : Follower G) (args : List Bytes) :
    (followHandleCommand lib hlib now f args).map Follower.st =
      loadCommand lib hlib now f.st args := by
  unfold followHandleCommand loadCommand
  obtain ⟨r, st⟩ := command lib hlib { out := .null, now } [] f.st args
  cases r with
  | ok reply d =>
    dsimp only
    split <;> rfl
  | err e =>
    dsimp only
    split <;> rfl
  | crash => rfl

variable (lib hlib now) in
/-- The commands of the leader run one after the other, as in a load. -/
theorem followLoop_flatMap (rd : CommandReader) {log : List (List Bytes)} {fuel : Nat}
    (hlog : ∀ args ∈ log, args ≠ []) (hfuel : (log.flatMap encodeCommand).length < fuel)
    (f : Follower G) :
    (followLoop lib hlib now rd fuel (log.flatMap encodeCommand) f).map
        (fun r => (r.1.st, r.2)) =
      (replay lib hlib now log f.st).map fun st => (st, []) := by
  induction log generalizing fuel f with
  | nil =>
    obtain ⟨fuel, rfl⟩ : ∃ n, fuel = n + 1 := ⟨fuel - 1, by omega⟩
    rw [flatMap_nil, followLoop, rd.read_nil]
    rfl
  | cons args log ih =>
    obtain ⟨fuel, rfl⟩ : ∃ n, fuel = n + 1 := ⟨fuel - 1, by omega⟩
    obtain ⟨bytes, hbytes⟩ := encodeCommand_eq_cons args
    rw [flatMap_cons, length_append, hbytes, length_cons] at hfuel
    rw [flatMap_cons, followLoop, (rd.reads args (hlog args (by simp))).full, replay,
      ← followHandleCommand_st]
    dsimp only
    cases followHandleCommand lib hlib now f args with
    | error e => rfl
    | ok f => exact ih (forall_mem_cons.mp hlog).2 (by omega) f

theorem replay_of_followFrom {D : Type} {flib : FollowLib D} (before : List (List Bytes))
    {rest : List (List Bytes)} (hlog : ∀ args ∈ rest, args ≠ []) {f f' : Follower G} {left : Bytes}
    (h : followFrom lib hlib flib now ((before ++ rest).flatMap encodeCommand)
      (before.flatMap encodeCommand).length f = .ok (f', left)) :
    replay lib hlib now rest f.st = .ok f'.st := by
  rw [followFrom, flatMap_append, drop_left, if_neg (by simp)] at h
  have hloop := followLoop_flatMap lib hlib now flib.multiBulk hlog (Nat.lt_succ_self _) f
  rw [h] at hloop
  cases hrun : replay lib hlib now rest f.st with
  | error e =>
    rw [hrun] at hloop
    cases hloop
  | ok st =>
    rw [hrun] at hloop
    cases hloop
    rfl

end Reading

/-! ## Exits -/

section Exits

variable {N G D : Type} [LinearOrder N] [DecidableEq D] {lib : ServerLib N G} {hlib : HookLib G}
  {flib : FollowLib D} {now : Int} {leader : Bytes} {f f₁ : Follower G} {pos : Nat}

/-- The exits of `followCheckSome`. -/
theorem followCheckSome_cases (hsz : f.aofsz = f.aof.length)
    (h : followCheckSome lib hlib flib now leader f = .ok (pos, f₁)) :
    (f.aof.length < checksumsz ∧ pos = 0 ∧ f₁ = f) ∨
      (checksumsz ≤ f.aof.length ∧ matchChecksums flib.md5 leader f 0 checksumsz = false ∧
        pos = 0 ∧ f₁.st = f.st) ∨
      ∃ fullpos : Nat, matchChecksums flib.md5 leader f 0 checksumsz = true ∧
        checksumsz ≤ f.aof.length ∧
        checkLoop (fun p => matchChecksums flib.md5 leader f p.toNat checksumsz) checksumsz
          (f.aof.length - checksumsz) f.aof.length = fullpos ∧
        getEndOfLastValuePositionInFile flib.multiBulk f.aof fullpos = some pos ∧
        (pos = fullpos ∧ f₁ = f ∨
          loadAOF lib hlib flib.nextCommand now (flib.packets (f.aof.take pos)) []
            ⟨{ f.st with cols := OrdMap.empty }, 0⟩ = .ok ⟨f₁.st, pos⟩) := by
  unfold followCheckSome searchPos at h
  rw [hsz] at h
  split_ifs at h with hsmall
  · cases h
    exact .inl ⟨hsmall, rfl, rfl⟩
  have hle : checksumsz ≤ f.aof.length := not_lt.mp hsmall
  right
  cases hmatch : matchChecksums flib.md5 leader f 0 checksumsz with
  | false =>
    simp only [Int.toNat_zero, hmatch, Bool.false_eq_true, if_false, if_true] at h
    cases h
    exact .inl ⟨hle, rfl, rfl, rfl⟩
  | true =>
    right
    simp only [Int.toNat_zero, hmatch, if_true] at h
    have hge := le_checkLoop (fun p => matchChecksums flib.md5 leader f p.toNat checksumsz)
      checksumsz (f.aof.length - checksumsz) f.aof.length
    obtain ⟨fullpos, hfull⟩ := Int.eq_ofNat_of_zero_le (le_trans (by decide) hge)
    refine ⟨fullpos, rfl, hle, hfull, ?_⟩
    rw [hfull] at h hge
    have hne : ¬ (fullpos : Int) = 0 := by
      have hpos : (0 : Int) < checksumsz := by decide
      omega
    rw [if_neg hne, Int.toNat_natCast] at h
    split at h
    · cases h
    rename_i p hp
    have hlen := getEndOfLastValuePositionInFile_le hp
    split_ifs at h with heq
    · cases h
      exact ⟨hp, .inl ⟨Int.ofNat.inj heq, rfl⟩⟩
    rw [truncate_of_le hlen] at h
    split at h
    · cases h
    rename_i x hload
    split at h
    · cases h
    rename_i hsize
    obtain ⟨st, n⟩ := x
    have hn : n = p := not_not.mp hsize
    subst hn
    cases h
    exact ⟨hp, .inr hload⟩

end Exits

/-! ### The small instance -/

/-- Blocks as their own checksums. -/
def textFollow : FollowLib Bytes where
  md5 := id
  multiBulk := respReader
  nextCommand := respReader
  packets file := [file]
  packets_flatten := by simp

/-- A follower with the log `own` that has followed a leader with the log
`theirs`. -/
def followed (own theirs : List (List Bytes)) : Except Err (Follower Unit × Bytes) := do
  let st ← replay textLib noHooks 0 own ServerState.empty
  let leader := theirs.flatMap encodeCommand
  let aof := own.flatMap encodeCommand
  let (pos, f) ← followCheckSome textLib noHooks textFollow 0 leader ⟨st, aof, aof.length⟩
  followFrom textLib noHooks textFollow 0 leader pos f

end SpatialDb.Server
