import MarloweAgent.Library.Trace
import MarloweAgent.Loop.Execution

/-! Complete mediation over whole runs: whatever reaches the tool host, in the run
or in a run it nests, was cleared in its own batch. -/

namespace MarloweAgent.Loop
open Contract Library Tools Permission

variable {σ : Type} {sys : Outside σ}

/-- A call of the host is mediated by what went before it. -/
def Effect.MediatedAfter (sys : Outside σ) (registry : ToolRegistry) (before : List Effect) :
    Effect → Prop
  | .hostCalled run items => Mediated sys registry before run items
  | _ => True

theorem Effect.PlainOf.mediatedAfter {registry : ToolRegistry} {run : RunId} {e : Effect}
    (h : e.PlainOf run) (before : List Effect) : e.MediatedAfter sys registry before := by
  cases e <;> first | trivial | cases h.plain

/-- The registry is this one, and every call of the host so far was mediated. -/
structure AllMediated (sys : Outside σ) (registry : ToolRegistry) (m : Machine σ) : Prop where
  kept : m.engine.registry = registry
  calls : Throughout (Effect.MediatedAfter sys registry) m.trace

/-- One step keeps every call of the host mediated. -/
theorem Act.allMediated {registry : ToolRegistry} {m m' : Machine σ} (h : Act sys m m')
    (hm : AllMediated sys registry m) : AllMediated sys registry m' := by
  refine ⟨h.kept.registry.trans hm.kept, ?_⟩
  cases h with
  | tell es h =>
    rw [h.trace]
    exact hm.calls.append fun e he => (h.plain e he).mediatedAfter
  | push | clear | latch | enlist => exact hm.calls
  | «begin» | violation | call | took | used | adjudicated | groupStart | checkpoint | asked =>
    exact hm.calls.concat trivial
  | answer => refine Throughout.concat (Throughout.concat hm.calls ?_) ?_ <;> trivial
  | compaction child summary p q first second fn sn h hf hs seen offered answer locals children cps state trace =>
    rw [trace]
    refine hm.calls.append (forall_compactionEffects hf hs (fun e he => he.mediatedAfter) ?_ ?_)
    · exact fun _ _ _ _ => trivial
    · exact fun _ => trivial
  | host items wallMs h =>
    rw [hm.kept] at h
    have hcalled : Throughout (Effect.MediatedAfter sys registry)
        (if items.isEmpty then m else m.note (.hostCalled m.run items)).trace := by
      split
      · exact hm.calls
      · exact hm.calls.concat h
    exact hcalled.concat trivial

/-- **Complete mediation**, over every execution, nested runs included. -/
theorem Runs.allMediated {registry : ToolRegistry} {m m' : Machine σ} (h : Runs sys m m')
    (hm : AllMediated sys registry m) : AllMediated sys registry m' := by
  refine Calls.keeps (fun _ _ => Act.allMediated) ?_ ?_ h hm
  · rintro m c ⟨child, state, -, rfl⟩ hm
    exact ⟨hm.kept, hm.calls.concat trivial⟩
  · rintro m c d m' - - ⟨fin, outcome, hfin, rfl⟩ - hd
    obtain ⟨es, htrace, hes⟩ := hfin.trace
    have hended : Throughout (Effect.MediatedAfter sys registry) fin.trace := by
      rw [htrace]
      exact hd.calls.append fun e he => (hes e he).mediatedAfter
    refine ⟨hfin.registry.trans hd.kept, ?_⟩
    refine Throughout.concat (Throughout.concat (Throughout.concat hended ?_) ?_) ?_ <;> trivial

/-- **Every call handed to the tool host was cleared in its own batch.** Whatever the
model, the tools, the people asked and the control surface do, whatever the
registry and wherever the run was resumed, each call of the host in the run or in a
run it nests comes at the end of a group of its run, and each of its items has its
own segment there: its adjudication under the run's exposed tools, the record of the
decision, and a yes where the decision asked for one. -/
theorem hostCalls_mediated (sys : Outside σ) (ports : Ports σ) (engine : Engine) (run : Run)
    (state : SessionState) (provenance : Provenance) (env : σ) (fresh steps retries : Nat) :
    Throughout (Effect.MediatedAfter sys engine.registry)
      ((runDriveInner sys ports steps retries).run
        (.start engine run state provenance env fresh steps retries)).2.trace := by
  have hstart : AllMediated sys engine.registry
      (Machine.start engine run state provenance env fresh steps retries) := ⟨rfl, .nil⟩
  exact ((runDriveInner_runs ports _).allMediated hstart).calls

end MarloweAgent.Loop
