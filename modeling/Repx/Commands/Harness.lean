import Repx.Commands.Verification

/-! # Repeated traces

The harness traces a command again and again, keeps the document of each run in a file of
its own and compares them all with the first. It reports identical roots when the runs were
one build, and only then, up to a collision; and the files it leaves behind give the same
report when they are read back.
-/
namespace Repx.Commands
open ByteString Utf8 UnixPaths KeyedSort HashTables Sha256 Attest Trace Workspace

/-- One run against the first. Of the ratio of common and of all leaves the two counts are kept. -/
structure RunStability where
  path : Str
  rootMatch : Bool
  processRootMatch : Bool
  leafCount : ℕ
  commonLeaves : ℕ
  allLeaves : ℕ
  missingLeaves : ℕ
  addedLeaves : ℕ
deriving DecidableEq

structure StabilityReport where
  baseline : Str
  runCount : ℕ
  rootMatches : ℕ
  processRootMatches : ℕ
  runs : List RunStability
deriving DecidableEq

def runStability (baseline : Attestation) (path : Str) (att : Attestation) : RunStability :=
  let baselineLeaves := orderedSet baseline.tree.leafHashes
  let leaves := orderedSet att.tree.leafHashes
  { path := path
    rootMatch := att.rootHash = baseline.rootHash
    processRootMatch := att.processRoot = baseline.processRoot
    leafCount := leaves.length
    commonLeaves := (baselineLeaves.filter leaves.contains).length
    allLeaves := (orderedSet (baselineLeaves ++ leaves)).length
    missingLeaves := (baselineLeaves.filter (!leaves.contains ·)).length
    addedLeaves := (leaves.filter (!baselineLeaves.contains ·)).length }

/-- The first document is the baseline, and is compared with itself as well. -/
def analyze : List (Str × Attestation) → Except Str StabilityReport
  | (baselinePath,baseline) :: second :: rest =>
    let runs := ((baselinePath,baseline) :: second :: rest).map fun (path,att) => runStability baseline path att
    .ok
      { baseline := baselinePath
        runCount := runs.length
        rootMatches := runs.countP RunStability.rootMatch
        processRootMatches := runs.countP RunStability.processRootMatch
        runs := runs }
  | _ => .error (utf8 "stability analysis requires at least two attestations")

section Commands
variable (sha256 : Str → Digest)

/-- The command that compares stored documents, with its report and whether it exits with success. -/
def stability (toJson : CommitmentV02 → Str) (parse : Str → Except Str AttestationDocument)
    (read : Str → Except Str Str) (attestations : List Str) (strict : Bool) :
    Except Str (StabilityReport × Bool) := do
  let inputs ← attestations.mapM fun path =>
    (readFromFile sha256 toJson parse (read path)).map fun att => (lossy path,att)
  let report ← analyze inputs
  .ok (report,!strict || report.rootMatches == report.runCount)

structure HarnessConfig where
  runs : ℕ
  flags : Flags
  allowDroppedEvents : Bool
  outputDir : Option Str

/-- What one run of the harness finds. -/
structure Round where
  before : Except Str Snapshot
  trace : Except Str TraceResult
  after : Except Str Snapshot
  order : IterationOrder ℕ
  traversal : IterationOrder Slice.Traversal

/-- The directory and the watched directories are resolved once, for all runs. -/
structure HarnessSite where
  workspaceRoot : Str
  canonicalize : Str → Option Str
  round : ℕ → Round

def HarnessSite.run (site : HarnessSite) (runIndex : ℕ) : Run where
  workspaceRoot := site.workspaceRoot
  before := (site.round runIndex).before
  trace := (site.round runIndex).trace
  after := (site.round runIndex).after
  canonicalize := site.canonicalize
  order := (site.round runIndex).order
  traversal := (site.round runIndex).traversal

structure RunOutcome where
  attestation : Attestation
  file : Str
  droppedEvents : UInt64

/-- `{:03}` of a number. -/
def threeDigits (n : ℕ) : Str := List.replicate (3 - (numeral 10 n).length) 48 ++ numeral 10 n

def runFile (config : HarnessConfig) (runIndex : ℕ) : Str :=
  push (config.outputDir.getD (utf8 "repx-harness-output"))
    (utf8 "run-" ++ threeDigits runIndex ++ utf8 "-attestation.json")

/-- One run of the loop. Dropped events are noticed before the outputs are selected. -/
def harnessRun (config : HarnessConfig) (site : HarnessSite) (runIndex : ℕ) : Except Str RunOutcome := do
  let run := site.run runIndex
  let before ← run.before
  let result ← run.trace
  let after ← run.after
  if 0 < result.droppedEvents ∧ ¬ config.allowDroppedEvents then
    .error (utf8 "Run " ++ numeral 10 runIndex ++ utf8 " dropped " ++ numeral 10 result.droppedEvents.toNat ++
      utf8 " events. Use --allow-dropped-events to continue anyway.")
  else do
    let selected ← selectOutputs before after run.workspaceRoot config.flags.artifacts config.flags.outputRoots
    .ok
      { attestation := (buildRecord sha256 run config.flags ⟨result,selected⟩).attestation sha256
        file := runFile config runIndex
        droppedEvents := result.droppedEvents }

def runHarness (config : HarnessConfig) (site : HarnessSite) : Except Str (List RunOutcome × StabilityReport) :=
  if config.runs < 2 then
    .error (utf8 "determinism harness requires at least 2 runs (got " ++ numeral 10 config.runs ++ utf8 ")")
  else do
    let outcomes ← (List.range' 1 config.runs).mapM (harnessRun sha256 config site)
    let report ← analyze (outcomes.map fun o => (lossy o.file,o.attestation))
    .ok (outcomes,report)

def identicalLine (runCount : ℕ) : Str :=
  utf8 "All " ++ numeral 10 runCount ++ utf8 " runs produced identical attestation roots."

/-- The verdict at the end of the report. -/
def closingLine (report : StabilityReport) : Str :=
  if report.rootMatches < report.runCount then
    utf8 "WARNING: " ++ numeral 10 (report.runCount - report.rootMatches) ++ utf8 " of " ++
      numeral 10 report.runCount ++ utf8 " runs produced a different attestation root."
  else identicalLine report.runCount

/-- The files behind the run; a later one takes the place of an earlier one of the same name. -/
def readWritten (render : AttestationDocument → Str) (outcomes : List RunOutcome) (path : Str) : Except Str Str :=
  match outcomes.reverse.find? (·.file = path) with
  | some o => .ok (render (serialize o.attestation))
  | none => .error (utf8 "No such file or directory (os error 2)")

end Commands

/-- A computation over a list succeeds with the results of its members. -/
theorem mapM_eq_ok {ε α β : Type} {f : α → Except ε β} {xs : List α} {ys : List β} :
    xs.mapM f = .ok ys ↔ List.Forall₂ (fun x y => f x = .ok y) xs ys := by
  induction xs generalizing ys with
  | nil => cases ys <;> simp [pure,Except.pure]
  | cons x xs ih =>
    rw [List.mapM_cons,bind_eq_ok]
    constructor
    · rintro ⟨y,hy,h⟩
      obtain ⟨rest,hrest,h⟩ := bind_eq_ok.mp h
      obtain rfl := Except.ok.inj h
      exact .cons hy (ih.mp hrest)
    · intro h
      cases h with
      | cons hy hrest => exact ⟨_,hy,bind_eq_ok.mpr ⟨_,ih.mpr hrest,rfl⟩⟩

/-! ## The files of a harness -/

/-- The zeros in front do not change the number. -/
theorem threeDigits_injective : Function.Injective threeDigits := by
  have hvalue (n : ℕ) : Nat.ofDigitChars 10 ((threeDigits n).map fun b => Char.ofNat b.toNat) 0 = n := by
    have hzeros (k : ℕ) (digits : List Char) :
        Nat.ofDigitChars 10 (List.replicate k '0' ++ digits) 0 = Nat.ofDigitChars 10 digits 0 := by
      induction k with
      | zero => rfl
      | succ k ih =>
        rw [List.replicate_succ,List.cons_append,← ih]
        rfl
    rw [threeDigits,List.map_append,List.map_replicate]
    exact (hzeros _ _).trans (ofDigitChars_numeral n)
  intro m n h
  rw [← hvalue m,← hvalue n,h]

theorem runFile_injective (config : HarnessConfig) : Function.Injective (runFile config) := by
  intro m n h
  have hrelative (k : ℕ) : isAbsolute (utf8 "run-" ++ threeDigits k ++ utf8 "-attestation.json") = false := rfl
  have hname := push_injective_of_relative (hrelative m) (hrelative n) h
  exact threeDigits_injective (List.append_cancel_left (List.append_cancel_right hname))

section Runs
variable {sha256 : Str → Digest} {config : HarnessConfig} {site : HarnessSite} {outcomes : List RunOutcome}
  {report : StabilityReport}

/-- A run of the loop carries a build through. -/
theorem harnessRun_eq_ok {runIndex : ℕ} {o : RunOutcome} (h : harnessRun sha256 config site runIndex = .ok o) :
    ∃ built, (site.run runIndex).build config.flags = .ok built ∧
      o.attestation = (buildRecord sha256 (site.run runIndex) config.flags built).attestation sha256 ∧
      o.file = runFile config runIndex := by
  obtain ⟨before,hb,h⟩ := bind_eq_ok.mp h
  obtain ⟨result,ht,h⟩ := bind_eq_ok.mp h
  obtain ⟨after,ha,h⟩ := bind_eq_ok.mp h
  split_ifs at h
  obtain ⟨selected,hs,h⟩ := bind_eq_ok.mp h
  obtain rfl := Except.ok.inj h
  exact ⟨⟨result,selected⟩,build_eq_ok.mpr ⟨before,after,hb,ht,ha,hs⟩,rfl,rfl⟩

theorem runHarness_eq_ok (h : runHarness sha256 config site = .ok (outcomes,report)) :
    2 ≤ config.runs ∧
      List.Forall₂ (fun i o => harnessRun sha256 config site i = .ok o) (List.range' 1 config.runs) outcomes ∧
      analyze (outcomes.map fun o => (lossy o.file,o.attestation)) = .ok report := by
  unfold runHarness at h
  split_ifs at h with hfew
  obtain ⟨outcomes',hruns,h⟩ := bind_eq_ok.mp h
  obtain ⟨report',hreport,h⟩ := bind_eq_ok.mp h
  obtain ⟨rfl,rfl⟩ := Prod.mk.inj (Except.ok.inj h)
  exact ⟨Nat.le_of_not_lt hfew,mapM_eq_ok.mp hruns,hreport⟩

/-- No run overwrites the file of another. -/
theorem nodup_files {indices : List ℕ} (hd : indices.Nodup)
    (h : List.Forall₂ (fun i o => harnessRun sha256 config site i = .ok o) indices outcomes) :
    (outcomes.map RunOutcome.file).Nodup := by
  have hfiles : outcomes.map RunOutcome.file = indices.map (runFile config) := by
    induction h with
    | nil => rfl
    | cons ho _ ih =>
      obtain ⟨-,-,-,hfile⟩ := harnessRun_eq_ok ho
      rw [List.map_cons,List.map_cons,hfile,ih (List.nodup_cons.mp hd).2]
  rw [hfiles]
  exact hd.map (runFile_injective config)

theorem readWritten_file {render : AttestationDocument → Str} (hd : (outcomes.map RunOutcome.file).Nodup)
    {o : RunOutcome} (ho : o ∈ outcomes) :
    readWritten render outcomes o.file = .ok (render (serialize o.attestation)) := by
  unfold readWritten
  cases hfind : outcomes.reverse.find? (·.file = o.file) with
  | none =>
    have hnone := List.find?_eq_none.mp hfind o (List.mem_reverse.mpr ho)
    simp at hnone
  | some o' =>
    have hfile : o'.file = o.file := by simpa using List.find?_some hfind
    have hmem := List.mem_reverse.mp (List.mem_of_find?_eq_some hfind)
    rw [List.inj_on_of_nodup_map hd hmem ho hfile]

/-- Every run stands for a build. -/
theorem exists_builds {indices : List ℕ}
    (hgenuine : ∀ i built, (site.run i).build config.flags = .ok built → Genuine built)
    (h : List.Forall₂ (fun i o => harnessRun sha256 config site i = .ok o) indices outcomes) :
    ∃ builds : List AttestedBuild,
      List.Forall₂ (fun i b => b.run = site.run i ∧ b.flags = config.flags) indices builds ∧
      outcomes.map RunOutcome.attestation = builds.map (AttestedBuild.attestation sha256) := by
  induction h with
  | nil => exact ⟨[],.nil,rfl⟩
  | @cons i _ _ _ ho _ ih =>
    obtain ⟨builds,hbuilds,hattested⟩ := ih
    obtain ⟨built,hbuild,hattestation,-⟩ := harnessRun_eq_ok ho
    refine ⟨⟨site.run i,config.flags,built,hbuild,hgenuine i built hbuild⟩ :: builds,.cons ⟨rfl,rfl⟩ hbuilds,?_⟩
    rw [List.map_cons,List.map_cons,hattested,hattestation]
    rfl

/-- Read back by the other command, the files of a harness give its report again. -/
theorem stability_of_harness (h : runHarness sha256 config site = .ok (outcomes,report))
    {toJson : CommitmentV02 → Str} {parse : Str → Except Str AttestationDocument} {render : AttestationDocument → Str}
    (hparse : ∀ o ∈ outcomes, parse (render (serialize o.attestation)) = .ok (serialize o.attestation))
    (strict : Bool) :
    stability sha256 toJson parse (readWritten render outcomes) (outcomes.map RunOutcome.file) strict =
      .ok (report,!strict || report.rootMatches == report.runCount) := by
  obtain ⟨-,hruns,hreport⟩ := runHarness_eq_ok h
  have hindices : (List.range' 1 config.runs).Nodup := List.nodup_range'
  have hd := nodup_files hindices hruns
  refine bind_eq_ok.mpr ⟨_,mapM_eq_ok.mpr ?_,bind_eq_ok.mpr ⟨_,hreport,rfl⟩⟩
  rw [List.forall₂_map_left_iff,List.forall₂_map_right_iff,List.forall₂_same]
  intro o ho
  obtain ⟨i,-,hrun⟩ := TextSearch.exists_of_mem_right hruns ho
  obtain ⟨built,-,hattestation,-⟩ := harnessRun_eq_ok hrun
  have hread := hparse o ho
  rw [readWritten_file hd ho]
  rw [hattestation] at hread ⊢
  rw [readFromFile_attestation hread]
  rfl

end Runs

/-! ## What the report says about the builds -/

/-- A run of the report against the builds it compares. -/
structure Describes (sha256 : Str → Digest) (first b : BuildRecord) (run : RunStability) : Prop where
  sameBuild : SameBuild first b → run.rootMatch
  rootMatch : run.rootMatch → SameBuild first b ∨ Collision sha256 (first.hashed sha256 ++ b.hashed sha256)
  alike : List.Forall₂ Alike first.operations b.operations →
    run.processRootMatch ∧ run.missingLeaves = 0 ∧ run.addedLeaves = 0
  processRootMatch : run.processRootMatch → List.Forall₂ Alike first.operations b.operations ∨
    Collision sha256 (first.hashed sha256 ++ b.hashed sha256)
  outputs : run.processRootMatch → ¬ run.rootMatch → ¬ first.outputs.Perm b.outputs

section Report
variable {sha256 : Str → Digest} {first b : BuildRecord} {config : HarnessConfig} {site : HarnessSite}
  {outcomes : List RunOutcome} {report : StabilityReport}

/-- The root is computed from the process root, the command, the sorted selection and the sorted outputs. -/
theorem BuildRecord.rootHash_attestation (r : BuildRecord) : (r.attestation sha256).rootHash =
    commitmentHashV03 (r.attestation sha256).processRoot r.command
      { r.selection with
        artifacts := sortByKey (fun s => s) r.selection.artifacts
        outputRoots := sortByKey (fun s => s) r.selection.outputRoots }
      (r.outputs.insertionSort outputLe) sha256 :=
  rfl

theorem describes_runStability (hfirst : first.Shaped) (hb : b.Shaped) (hfits : first.Fits) (hfits' : b.Fits)
    (hcommand : first.command = b.command) (hselection : first.selection = b.selection) (path : Str) :
    Describes sha256 first b (runStability (first.attestation sha256) path (b.attestation sha256)) where
  sameBuild h := by simp [runStability,h.attestation_eq hfirst hb]
  rootMatch h := sameBuild_or_collision hfirst hb hfits hfits' (of_decide_eq_true h).symm
  alike h := by
    have htree : (first.attestation sha256).tree = (b.attestation sha256).tree :=
      buildMerkleTree_eq_of_alike hfirst hb h
    have hprocess : (first.attestation sha256).processRoot = (b.attestation sha256).processRoot :=
      congrArg (Merkle.MerkleTree.rootHash sha256) htree
    simp [runStability,htree,hprocess]
  processRootMatch h := alike_or_collision hfirst hb (of_decide_eq_true h).symm
  outputs hprocess hroot houtputs := by
    refine hroot (decide_eq_true ?_)
    rw [BuildRecord.rootHash_attestation,BuildRecord.rootHash_attestation,of_decide_eq_true hprocess,hcommand,
      hselection,sortOutputs_eq_of_perm houtputs]

/-- The first of the builds is the baseline of the report. -/
theorem lines_of_analyze {builds : List AttestedBuild} {baseline : AttestedBuild}
    (h : analyze (outcomes.map fun o => (lossy o.file,o.attestation)) = .ok report)
    (hattested : outcomes.map RunOutcome.attestation = (baseline :: builds).map (AttestedBuild.attestation sha256)) :
    List.Forall₂ (fun b run => ∃ path, run = runStability (baseline.attestation sha256) path (b.attestation sha256))
        (baseline :: builds) report.runs ∧
      report.runCount = report.runs.length ∧ report.rootMatches = report.runs.countP RunStability.rootMatch := by
  obtain ⟨o,others,rfl,ho,hothers⟩ := List.map_eq_cons_iff.mp hattested
  cases others with
  | nil => simp [analyze] at h
  | cons second rest =>
    obtain rfl := Except.ok.inj h
    refine ⟨?_,rfl,rfl⟩
    have hpairs : List.Forall₂ (fun o b => RunOutcome.attestation o = AttestedBuild.attestation sha256 b)
        (o :: second :: rest) (baseline :: builds) := by
      rw [← List.forall₂_map_left_iff (R := fun att b => att = AttestedBuild.attestation sha256 b),
        ← List.forall₂_map_right_iff (R := fun att att' => att = att'),hattested]
      exact List.forall₂_same.mpr fun _ _ => rfl
    change List.Forall₂ _ (baseline :: builds)
      (((o :: second :: rest).map fun o => (lossy o.file,o.attestation)).map fun (path,att) =>
        runStability o.attestation path att)
    rw [List.forall₂_map_right_iff,List.forall₂_map_right_iff]
    refine hpairs.flip.imp fun b other hother => ⟨lossy other.file,?_⟩
    rw [← hother,← ho]

/-- The last line depends on whether every run has the root of the first. -/
theorem closingLine_eq_identicalLine (hcount : report.runCount = report.runs.length)
    (hmatches : report.rootMatches = report.runs.countP RunStability.rootMatch) :
    closingLine report = identicalLine report.runCount ↔ ∀ run ∈ report.runs, run.rootMatch := by
  rw [← List.countP_eq_length,← hmatches,← hcount]
  have hle : report.rootMatches ≤ report.runCount := by
    rw [hmatches,hcount]
    exact List.countP_le_length
  unfold closingLine
  split_ifs with hless
  · refine iff_of_false (fun he => ?_) (Nat.ne_of_lt hless)
    simp only [identicalLine,List.append_assoc] at he
    have hhead : (87 : UInt8) = 65 := (List.cons.inj he).1
    exact absurd hhead (by decide)
  · exact iff_of_true rfl (Nat.le_antisymm hle (Nat.le_of_not_lt hless))

variable (sha256) in
/-- All builds of a harness are recorded with the same command and the same selection. -/
theorem record_of_round {i : ℕ} {b : AttestedBuild} (h : b.run = site.run i ∧ b.flags = config.flags) :
    (b.record sha256).command = config.flags.command ∧
      (b.record sha256).selection =
        outputSelectionMetadata (outputMode config.flags.artifacts config.flags.outputRoots) site.workspaceRoot
          config.flags.artifacts config.flags.outputRoots := by
  have hroot : b.run.workspaceRoot = site.workspaceRoot := by rw [h.1,HarnessSite.run]
  rw [AttestedBuild.record,buildRecord,b.mode_eq,h.2,hroot]
  exact ⟨rfl,rfl⟩

/-- The report of a harness tells which runs were the build of the first one, and its last line whether all were
one build, up to collisions. -/
theorem harness_describes (h : runHarness sha256 config site = .ok (outcomes,report))
    (hgenuine : ∀ i built, (site.run i).build config.flags = .ok built → Genuine built)
    (hfits : ∀ i built, (site.run i).build config.flags = .ok built →
      (buildRecord sha256 (site.run i) config.flags built).Fits) :
    ∃ (first : AttestedBuild) (rest : List AttestedBuild),
      List.Forall₂ (fun i b => b.run = site.run i ∧ b.flags = config.flags) (List.range' 1 config.runs)
        (first :: rest) ∧
      outcomes.map RunOutcome.attestation = (first :: rest).map (AttestedBuild.attestation sha256) ∧
      List.Forall₂ (fun b run => Describes sha256 (first.record sha256) (b.record sha256) run) (first :: rest)
        report.runs ∧
      ((∀ b ∈ rest, SameBuild (first.record sha256) (b.record sha256)) →
        closingLine report = identicalLine config.runs) ∧
      (closingLine report = identicalLine config.runs → ∀ b ∈ first :: rest, ∀ b' ∈ first :: rest,
        SameBuild (b.record sha256) (b'.record sha256) ∨
          Collision sha256 ((b.record sha256).hashed sha256 ++ (b'.record sha256).hashed sha256)) := by
  obtain ⟨hmany,hruns,hreport⟩ := runHarness_eq_ok h
  obtain ⟨builds,hbuilds,hattested⟩ := exists_builds hgenuine hruns
  have hround : ∀ b ∈ builds, ∃ i, b.run = site.run i ∧ b.flags = config.flags := by
    intro b hb
    obtain ⟨i,-,hi⟩ := TextSearch.exists_of_mem_right hbuilds hb
    exact ⟨i,hi⟩
  have hfit : ∀ b ∈ builds, (b.record sha256).Fits := by
    intro b hb
    obtain ⟨i,hrun,hflags⟩ := hround b hb
    have hbuild := b.build_eq
    rw [hrun,hflags] at hbuild
    rw [AttestedBuild.record,hrun,hflags]
    exact hfits i b.built hbuild
  cases builds with
  | nil => exact absurd hbuilds.length_eq (by rw [List.length_range',List.length_nil]; omega)
  | cons first rest =>
    have hlines := lines_of_analyze hreport hattested
    have hcount : report.runCount = config.runs := by
      rw [hlines.2.1,← hlines.1.length_eq,← hbuilds.length_eq,List.length_range']
    have hfirst := List.mem_cons_self (a := first) (l := rest)
    have hdescribes : List.Forall₂ (fun b run => Describes sha256 (first.record sha256) (b.record sha256) run)
        (first :: rest) report.runs := by
      have hmember := (List.forall₂_and_left (p := fun b => b ∈ first :: rest) _ _).mpr ⟨fun b hb => hb,hlines.1⟩
      refine hmember.imp ?_
      rintro b run ⟨hb,path,rfl⟩
      obtain ⟨i,hi⟩ := hround b hb
      obtain ⟨j,hj⟩ := hround first hfirst
      obtain ⟨hcommand,hselection⟩ := record_of_round sha256 hi
      obtain ⟨hcommand',hselection'⟩ := record_of_round sha256 hj
      exact describes_runStability (first.shaped sha256) (b.shaped sha256) (hfit first hfirst) (hfit b hb)
        (hcommand'.trans hcommand.symm) (hselection'.trans hselection.symm) path
    refine ⟨first,rest,hbuilds,hattested,hdescribes,fun hsame => ?_,fun hclosing b hb b' hb' => ?_⟩
    · rw [← hcount,closingLine_eq_identicalLine hlines.2.1 hlines.2.2]
      intro run hrun
      obtain ⟨b,hb,hd⟩ := TextSearch.exists_of_mem_right hdescribes hrun
      rcases List.mem_cons.mp hb with rfl | hb
      · exact hd.sameBuild (.refl _)
      · exact hd.sameBuild (hsame b hb)
    · rw [← hcount,closingLine_eq_identicalLine hlines.2.1 hlines.2.2] at hclosing
      have hroot : ∀ b ∈ first :: rest, (b.attestation sha256).rootHash = (first.attestation sha256).rootHash := by
        intro b hb
        obtain ⟨run,hrun,path,rfl⟩ := TextSearch.exists_of_mem_right hlines.1.flip hb
        exact of_decide_eq_true (hclosing _ hrun)
      exact sameBuild_or_collision (b.shaped sha256) (b'.shaped sha256) (hfit b hb) (hfit b' hb')
        ((hroot b hb).trans (hroot b' hb').symm)

end Report

/-! ## Two runs of one command -/

def bareConfig : HarnessConfig := ⟨2,bareFlags,false,none⟩

def bareSite : HarnessSite where
  workspaceRoot := utf8 "/w"
  canonicalize _ := none
  round _ :=
    { before := (bareMachine.run bareFlags).before
      trace := (bareMachine.run bareFlags).trace
      after := (bareMachine.run bareFlags).after
      order := .stored
      traversal := .stored }

def bareOutcome (runIndex : ℕ) : RunOutcome := ⟨bareAttested.attestation blank,runFile bareConfig runIndex,0⟩

def bareReport : StabilityReport :=
  let line (runIndex : ℕ) : RunStability :=
    ⟨utf8 "repx-harness-output/run-00" ++ numeral 10 runIndex ++ utf8 "-attestation.json",true,true,1,1,1,0,0⟩
  ⟨utf8 "repx-harness-output/run-001-attestation.json",2,2,2,[line 1,line 2]⟩

theorem runHarness_bare : runHarness blank bareConfig bareSite = .ok ([bareOutcome 1,bareOutcome 2],bareReport) := by
  have hrun (i : ℕ) : harnessRun blank bareConfig bareSite i = .ok (bareOutcome i) := rfl
  rw [runHarness,if_neg (by decide)]
  refine bind_eq_ok.mpr ⟨_,mapM_eq_ok.mpr (.cons (hrun 1) (.cons (hrun 2) .nil)),bind_eq_ok.mpr ⟨_,?_,rfl⟩⟩
  decide +kernel

theorem harness_describes_bare : closingLine bareReport = identicalLine 2 ∧
    ∃ builds : List AttestedBuild, builds.length = 2 ∧ ∀ b ∈ builds, ∀ b' ∈ builds,
      SameBuild (b.record blank) (b'.record blank) ∨
        Collision blank ((b.record blank).hashed blank ++ (b'.record blank).hashed blank) := by
  have hclosing : closingLine bareReport = identicalLine 2 := by decide +kernel
  obtain ⟨first,rest,hrounds,-,-,-,hidentical⟩ := harness_describes runHarness_bare
    (fun i built hbuild => hashing_bareMachine.genuine hbuild) fun i built hbuild => by
      obtain rfl : built = bareBuilt := Except.ok.inj (hbuild.symm.trans build_bareMachine)
      exact fits_bareAttested blank
  exact ⟨hclosing,first :: rest,hrounds.length_eq.symm,hidentical hclosing⟩

theorem stability_of_harness_bare :
    stability blank commitmentJson bareParse (readWritten documentPretty [bareOutcome 1,bareOutcome 2])
      [runFile bareConfig 1,runFile bareConfig 2] true = .ok (bareReport,true) :=
  stability_of_harness runHarness_bare (fun o ho => by
    rcases List.mem_pair.mp ho with rfl | rfl <;> exact if_pos (Or.inr rfl)) true

end Repx.Commands
