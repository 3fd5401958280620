import GraphClient.Command.Run
import GraphClient.Proofs.Project.Output

/-!
# What commands change

A command looks at files until it writes a client, and it writes one only if nothing failed before.
-/

namespace GraphClient

namespace FileTree

/-- **A program that looks at files** and leaves every tree as it is. -/
class Looks {α : Type} (program : ExceptT ProjectError (StateM FileTree) α) : Prop where
  snd_run (tree : FileTree) : (tree.run program).2 = tree

/-- What a program finds on a tree. -/
def outcome {α : Type} (tree : FileTree) (program : ExceptT ProjectError (StateM FileTree) α) :
    Except ProjectError α := (tree.run program).1

section Looks

variable {α β : Type} {program : ExceptT ProjectError (StateM FileTree) α}
  {rest : α → ExceptT ProjectError (StateM FileTree) β}

theorem Looks.run_bind [Looks program] (tree : FileTree) : tree.run (program >>= rest) = match tree.outcome program with
    | .ok a => tree.run (rest a)
    | .error error => (.error error, tree) := by
  have hs : (tree.run program).2 = tree := snd_run tree
  rw [run_bind_eq, outcome]
  rcases hr : tree.run program with ⟨error | a, next⟩
  all_goals
    rw [hr] at hs
    rw [← hs]

instance (a : α) : Looks (pure a) := ⟨fun _ => rfl⟩

instance (error : ProjectError) : Looks (throw error : ExceptT ProjectError (StateM FileTree) α) := ⟨fun _ => rfl⟩

theorem Looks.bind [Looks program] (h : ∀ a, Looks (rest a)) : Looks (program >>= rest) where
  snd_run tree := by
    rw [run_bind]
    cases tree.outcome program with
    | error error => rfl
    | ok a => exact (h a).snd_run tree

end Looks

instance (path : Path) : Looks (FileSystem.isFile path) := ⟨fun _ => rfl⟩

instance (path : Path) : Looks (FileSystem.isDirectory path) := ⟨fun _ => rfl⟩

instance (path : Path) : Looks (FileSystem.readText path) := ⟨fun _ => rfl⟩

instance (path : Path) (wanted : String → Bool) : Looks (FileSystem.walk path wanted) := by
  unfold FileSystem.walk
  split
  · infer_instance
  · exact ⟨fun _ => rfl⟩

instance (path : Path) : Looks (Config.load path) := by
  refine .bind fun text => ?_
  split
  · split <;> infer_instance
  · infer_instance

instance (command : Command) : Looks command.configuration := by
  have hd : Looks (Config.discover command.config) := by
    unfold Config.discover
    split
    · infer_instance
    · refine .bind fun isFile => ?_
      split <;> infer_instance
  exact .bind fun _ => inferInstance

instance (root : Path) (glob : Glob) : Looks (search root glob) := by
  refine .bind fun isDirectory => ?_
  split
  · exact .bind fun _ => inferInstance
  · infer_instance

instance (path : Path) : Looks (expandInput path) := by
  refine .bind fun isFile => ?_
  split
  · infer_instance
  refine .bind fun isDirectory => ?_
  split
  · split <;> infer_instance
  split
  · dsimp only
    split
    · refine .bind fun found => ?_
      split <;> infer_instance
    · infer_instance
  · infer_instance

theorem looks_expandInto (files : PathSet) (paths : List Path) : Looks (expandInto files paths) := by
  induction paths generalizing files with
  | nil => exact inferInstanceAs (Looks (pure files))
  | cons path paths ih => exact .bind fun _ => ih _

theorem looks_readTexts (paths : List Path) : Looks (readTexts paths) := by
  induction paths with
  | nil => exact inferInstanceAs (Looks (pure []))
  | cons path paths ih =>
    refine .bind fun text => ?_
    split
    · exact .bind fun _ => inferInstance
    · infer_instance

instance (config : Config) : Looks (loadSources config) := by
  have he : Looks (expand config.inputs) := looks_expandInto [] _
  refine .bind fun files => ?_
  have hr := looks_readTexts files
  split
  · exact .bind fun _ => .bind fun _ => inferInstance
  · exact .bind fun _ => inferInstance

end FileTree

namespace Command

open FileTree (Looks)

variable (command : Command)

/-- **The client that a command writes, and the directory below which it does.** The command generates clients
and is no dry run, and its configuration, its inputs, their analysis and the generation are without errors. -/
def target? (tree : FileTree) : Option (Path × GeneratedClient) :=
  if command.verb = .generate ∧ command.dryRun = false then do
    let config ← (tree.outcome command.configuration).toOption
    let directory ← config.output
    let sources ← (tree.outcome (loadSources config)).toOption
    let client ← (GraphClient.generate (analyze sources) config.options config.language).toOption
    if (analyze sources).isOk then return (directory, client) else none
  else none

theorem code_report (code : Nat) (srcs : List Source) (ds : Diagnostics) (files before : List String)
    (success : Option String) : (command.report code srcs ds files before success).code = code := by
  unfold report
  split <;> rfl

instance (config : Config) : Looks (command.check config) := .bind fun _ => inferInstance

instance (config : Config) : Looks (command.printSchema config) := by
  refine .bind fun srcs => ?_
  dsimp only
  split <;> infer_instance

/-- The steps of a generation. Up to the last one they look at files only. -/
theorem run_generate (config : Config) (tree : FileTree) : tree.run (command.generate config) =
    if config.output.isNone && !command.dryRun then (.error .noOutput, tree)
    else match tree.outcome (loadSources config) with
      | .error cause => (.error cause, tree)
      | .ok srcs =>
        if (analyze srcs).isOk then
          match GraphClient.generate (analyze srcs) config.options config.language with
          | .error cause => (.error (.notGenerated cause), tree)
          | .ok client =>
            let ds := (analyze srcs).diagnostics ++ client.diagnostics
            match config.output, command.dryRun with
            | some dir, false => tree.run (command.write dir srcs ds client)
            | _, _ => (.ok (command.list srcs ds client), tree)
        else (.ok (command.failed srcs (analyze srcs)), tree) := by
  unfold generate
  dsimp only
  split
  · rfl
  rw [Looks.run_bind]
  cases tree.outcome (loadSources config) with
  | error => rfl
  | ok srcs =>
    dsimp only
    unfold client
    cases (analyze srcs).isOk with
    | false => rfl
    | true =>
      cases GraphClient.generate (analyze srcs) config.options config.language with
      | error => rfl
      | ok client => cases config.output <;> cases command.dryRun <;> rfl

theorem snd_run_generate {config : Config} (tree : FileTree) (h : config.output = none ∨ command.dryRun) :
    (tree.run (command.generate config)).2 = tree := by
  rw [run_generate]
  repeat' split
  all_goals first | rfl | simp_all

theorem run_write (dir : Path) (srcs : List Source) (ds : Diagnostics) (client : GeneratedClient) (tree : FileTree) :
    let written := tree.run (writeClient dir client.files)
    let outcome := tree.run (command.write dir srcs ds client)
    outcome.2 = written.2 ∧ match written.1 with
      | .ok _ => ∃ res, outcome.1 = .ok res ∧ res.code = 0
      | .error cause => outcome.1 = .error cause := by
  unfold write
  dsimp only
  rw [FileTree.run_bind_eq]
  rcases tree.run (writeClient dir client.files) with ⟨cause | summary, next⟩
  · exact ⟨rfl, rfl⟩
  · exact ⟨rfl, _, rfl, command.code_report ..⟩

/-- **What a command changes.** If it has a client to write, it does what writing this client does, and ends with
0 when that succeeds. Otherwise it changes nothing. -/
theorem changes_run (tree : FileTree) : match command.target? tree with
    | some (directory, client) =>
      let written := tree.run (writeClient directory client.files)
      (tree.run command.run).2 = written.2 ∧ match written.1 with
        | .ok _ => ∃ result, (tree.run command.run).1 = .ok result ∧ result.code = 0
        | .error cause => (tree.run command.run).1 = .error cause
    | none => (tree.run command.run).2 = tree := by
  unfold target? run
  cases command.verb with
  | check => exact (Looks.bind fun _ => inferInstance).snd_run tree
  | printSchema => exact (Looks.bind fun _ => inferInstance).snd_run tree
  | version => rfl
  | generate =>
    rw [Looks.run_bind]
    cases tree.outcome command.configuration with
    | error => split_ifs <;> rfl
    | ok config =>
      simp only [Except.toOption, true_and, Option.bind_eq_bind, Option.bind_some]
      cases houtput : config.output with
      | none =>
        have hkept := command.snd_run_generate tree (.inl houtput)
        split_ifs <;> exact hkept
      | some directory =>
        cases hdry : command.dryRun with
        | true => exact command.snd_run_generate tree (.inr hdry)
        | false =>
          simp only [if_true, Option.bind_some, run_generate, houtput, hdry, Option.isNone_some, Bool.false_and,
            Bool.false_eq_true, if_false]
          cases tree.outcome (loadSources config) with
          | error => rfl
          | ok sources =>
            simp only [Option.bind_some]
            cases (analyze sources).isOk <;>
              cases GraphClient.generate (analyze sources) config.options config.language <;>
              first | rfl | exact command.run_write ..

end Command

end GraphClient
