import GraphRelay.Command.Run
import GraphRelay.Proofs.EdgeList.Loading
import GraphRelay.Proofs.Files

/-!
# Commands that write files

Commands on a host that is all data, one action after the other. Files that are written in a directory
are all there at the end, unless the directory cannot be made or there is no way to one of them.
-/
namespace GraphRelay.Command

open FileTree

variable {csv : Csv.Codec} {w w' : MemoryHost} {l : EdgeList} {g : FrozenGraph}

/-- An action of a command on a host that is all data. -/
def outcome {α : Type} (x : ExceptT Failure (StateM MemoryHost) α) (w : MemoryHost) :
    Except Failure α × MemoryHost := x.run.run w

section Outcome

variable {α β : Type} {x : ExceptT Failure (StateM MemoryHost) α} {a : α} {f : Failure}

theorem outcome_bind_ok (h : outcome x w = (.ok a, w'))
    (next : α → ExceptT Failure (StateM MemoryHost) β) :
    outcome (x >>= next) w = outcome (next a) w' := by
  simp only [outcome, ExceptT.run_bind, StateT.run_bind] at h ⊢
  rw [h]
  rfl

theorem outcome_bind_error (h : outcome x w = (.error f, w'))
    (next : α → ExceptT Failure (StateM MemoryHost) β) :
    outcome (x >>= next) w = (.error f, w') := by
  simp only [outcome, ExceptT.run_bind, StateT.run_bind] at h ⊢
  rw [h]
  rfl

theorem outcome_lift {y : StateM MemoryHost α} (h : y.run w = (a, w')) :
    outcome (monadLift y) w = (.ok a, w') := by
  change (match y.run w with | (a, w') => ((Except.ok a, w') : Except Failure α × MemoryHost)) = _
  rw [h]

theorem outcome_ofExcept {ε : Type} (wrap : ε → Failure) (e : Except ε α) (w : MemoryHost) :
    outcome (ofExcept wrap e) w = (e.mapError wrap, w) := rfl

theorem outcome_ofCall_ok (a : α) (w : MemoryHost) :
    outcome (ofCall (some (.ok a))) w = (.ok a, w) := rfl

theorem outcome_ofCall_none (w : MemoryHost) :
    outcome (ofCall (α := α) none) w = (.error .overflow, w) := rfl

end Outcome

section LoadGraph

variable {input : EdgeListInput}
  (loaded : EdgeList.load csv input.source (w.files.read input.path) = .ok l)

include loaded

theorem outcome_loadGraph_eq : outcome (loadGraph csv input) w = outcome (ofCall l.graph) w := by
  have read : outcome (monadLift (Host.readFile input.path : StateM MemoryHost _)) w =
      (.ok (w.files.read input.path), w) := rfl
  have list : outcome (ofExcept Failure.edgeList (.ok l)) w = (.ok l, w) := outcome_ofExcept ..
  rw [loadGraph, outcome_bind_ok read, loaded, outcome_bind_ok list]

theorem outcome_loadGraph (made : l.graph = some (.ok g)) :
    outcome (loadGraph csv input) w = (.ok g, w) := by
  rw [outcome_loadGraph_eq loaded, made, outcome_ofCall_ok]

theorem outcome_loadGraph_none (outgrown : UInt64.size ≤ l.vertexCount + 1) :
    outcome (loadGraph csv input) w = (.error .overflow, w) := by
  rw [outcome_loadGraph_eq loaded, (EdgeList.inside_of_load loaded).graph_eq_none outgrown,
    outcome_ofCall_none]

end LoadGraph

/-- What comes of files that are to be written in a row: all of them are there, or those before the
first to which no way leads. -/
inductive Wrote (w : MemoryHost) : List (String × Bytes) → Except Failure Unit → MemoryHost → Prop where
  | all {files : List (String × Bytes)} {w' : MemoryHost}
      (writable : ∀ f ∈ files, w.files.Writable f.1)
      (there : ∀ f ∈ files, w'.files.read f.1 = .ok f.2) : Wrote w files (.ok ()) w'
  | cut {before after : List (String × Bytes)} {path : String} {content : Bytes}
      {fault : FileFault} {w' : MemoryHost} (writable : ∀ f ∈ before, w.files.Writable f.1)
      (unwritable : ¬ w.files.Writable path)
      (there : ∀ f ∈ before, w'.files.read f.1 = .ok f.2) :
      Wrote w (before ++ (path, content) :: after) (.error (.file fault)) w'

theorem Wrote.cons {next : MemoryHost} {f : String × Bytes} {files : List (String × Bytes)}
    {r : Except Failure Unit} (same : ∀ path, next.files.Writable path ↔ w.files.Writable path)
    (writable : w.files.Writable f.1) (here : w'.files.read f.1 = .ok f.2)
    (later : Wrote next files r w') : Wrote w (f :: files) r w' := by
  cases later with
  | all all there =>
    simp only [same] at all
    exact .all (List.forall_mem_cons.2 ⟨writable, all⟩) (List.forall_mem_cons.2 ⟨here, there⟩)
  | cut before unwritable there =>
    simp only [same] at before unwritable
    exact .cut (List.forall_mem_cons.2 ⟨writable, before⟩) unwritable
      (List.forall_mem_cons.2 ⟨here, there⟩)

theorem run_writeFile (path : String) (content : Bytes) (w : MemoryHost) :
    (Host.writeFile path content : StateM MemoryHost _).run w =
      (match w.files.write path content with
        | .ok files => do set { w with files := files }; pure (.ok ())
        | .error f => pure (.error f) : StateM MemoryHost (Except FileFault Unit)).run w := rfl

theorem outcome_writeFile_ok {path : String} {content : Bytes} {tree : FileTree}
    (written : w.files.write path content = .ok tree) :
    outcome (writeFile path content) w = (.ok (), { w with files := tree }) := by
  have run := run_writeFile path content w
  rw [written] at run
  exact outcome_bind_ok (outcome_lift run) _

theorem outcome_writeFile_error {path : String} {content : Bytes} {fault : FileFault}
    (refused : w.files.write path content = .error fault) :
    outcome (writeFile path content) w = (.error (.file fault), w) := by
  have run := run_writeFile path content w
  rw [refused] at run
  exact outcome_bind_ok (outcome_lift run) _

/-- Files apart from one another are written in a row, and files apart from them stay. -/
theorem exists_wrote {files : List (String × Bytes)} (w : MemoryHost)
    (apart : files.Pairwise fun f f' => Apart f.1 f'.1) :
    ∃ r w', outcome (files.forM fun (path, content) => writeFile path content) w = (r, w') ∧
      Wrote w files r w' ∧
      ∀ other found, (∀ f ∈ files, Apart f.1 other) → w.files.read other = .ok found →
        w'.files.read other = .ok found := by
  induction files generalizing w with
  | nil => exact ⟨.ok (), w, rfl, .all (by simp) (by simp), fun _ _ _ had => had⟩
  | cons f files ih =>
    obtain ⟨path, content⟩ := f
    rw [List.pairwise_cons] at apart
    cases written : w.files.write path content with
    | error fault =>
      refine ⟨_, w, outcome_bind_error (outcome_writeFile_error written) _, ?_,
        fun _ _ _ had => had⟩
      have refused : ¬ w.files.Writable path := fun writable => by
        obtain ⟨tree, wrote⟩ : ∃ t, w.files.write path content = .ok t := writable_iff.1 writable
        simp [wrote] at written
      exact @Wrote.cut w [] files path content fault w (by simp) refused (by simp)
    | ok tree =>
      obtain ⟨r, w', run, later, kept⟩ := ih { w with files := tree } apart.2
      refine ⟨r, w', (outcome_bind_ok (outcome_writeFile_ok written) _).trans run, ?_,
        fun other found separate had => ?_⟩
      · refine later.cons (writable_of_write written) (writable_iff.2 ⟨tree, written⟩) ?_
        exact kept _ _ (fun f hf => (apart.1 f hf).symm) (read_of_write written)
      · rw [List.forall_mem_cons] at separate
        exact kept other found separate.2 (read_of_write_apart written separate.1 had)

/-- What comes of files in a directory that may have to be made. -/
inductive Saved (directory : String) (files : List (String × Bytes)) (w : MemoryHost) :
    Except Failure Unit → MemoryHost → Prop where
  | refused {fault : FileFault} {w' : MemoryHost}
      (refused : (Directory.makeAll directory : StateM MemoryHost _).run w = (.error fault, w')) :
      Saved directory files w (.error (.file fault)) w'
  | made {r : Except Failure Unit} {next w' : MemoryHost}
      (made : (Directory.makeAll directory : StateM MemoryHost _).run w = (.ok (), next))
      (wrote : Wrote next files r w') : Saved directory files w r w'

theorem Saved.there {directory : String} {files : List (String × Bytes)}
    (h : Saved directory files w (.ok ()) w') : ∀ f ∈ files, w'.files.read f.1 = .ok f.2 := by
  cases h with
  | made _ wrote =>
    cases wrote with
    | all _ there => exact there

/-- Nothing is refused where the directory can be made and a way leads to every file then. -/
theorem Saved.complete {directory : String} {files : List (String × Bytes)} {next : MemoryHost}
    {r : Except Failure Unit} (h : Saved directory files w r w')
    (made : (Directory.makeAll directory : StateM MemoryHost _).run w = (.ok (), next))
    (writable : ∀ f ∈ files, next.files.Writable f.1) : r = .ok () := by
  cases h with
  | refused refused =>
    rw [made] at refused
    cases refused
  | made made' wrote =>
    obtain rfl : next = _ := (Prod.mk.inj (made.symm.trans made')).2
    cases wrote with
    | all => rfl
    | cut _ unwritable =>
      exact absurd (writable _ (List.mem_append_right _ List.mem_cons_self)) unwritable

theorem exists_saved (directory : String) {files : List (String × Bytes)} (w : MemoryHost)
    (apart : files.Pairwise fun f f' => Apart f.1 f'.1) :
    ∃ r w', outcome (writeFiles directory files) w = (r, w') ∧ Saved directory files w r w' := by
  rw [writeFiles]
  cases made : (Directory.makeAll directory : StateM MemoryHost _).run w with
  | mk answer next =>
    rw [outcome_bind_ok (outcome_lift made)]
    cases answer with
    | error fault => exact ⟨_, next, outcome_bind_error (outcome_ofExcept ..) _, .refused made⟩
    | ok _ =>
      obtain ⟨r, w', run, wrote, -⟩ := exists_wrote next apart
      exact ⟨r, w', (outcome_bind_ok (outcome_ofExcept ..) _).trans run, .made made wrote⟩

end GraphRelay.Command
