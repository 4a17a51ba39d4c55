import Cact.Ir.Ssa

/-!
# Programs with fewer instructions

A function that has lost instructions, blocks or arguments of phis uses its variables as it
did before, so it is as well typed as before.

- `Func.WellTyped.of_fewer`, `Program.WellFormed.of_fewer`: what is left to show.
-/

namespace Cact

namespace Ir

variable {env : Vm.Env} {prog prog' : Program} {f f' : Func}

/-- Types stay right when the instructions that are left stood there before. -/
theorem Func.WellTyped.of_fewer (h : f.WellTyped env prog) (hslot : f'.slotType = f.slotType)
    (hg : prog'.globals = prog.globals) (hment : ∀ x, f'.Mentions x → f.Mentions x)
    (hinst : ∀ id b' i, f'.block? id = some b' → i ∈ b'.insts → ∃ b, f.block? id = some b ∧
      (i ∈ b.insts ∨ ∃ p args, i = .phi ⟨p.result, args⟩ ∧ .phi p ∈ b.insts ∧
        ∀ a ∈ args, a ∈ p.args)) : f'.WellTyped env prog' := by
  have htype : ∀ k, prog'.typeIn f' k = prog.typeIn f k := fun k => by
    unfold Program.typeIn Program.slotType
    rw [hslot, hg]
  refine ⟨?_, ?_, ?_, ?_, ?_, ?_⟩
  · intro u hu
    rw [htype]
    exact h.slots u (hment _ hu)
  · exact fun u w hu hw => h.apart u w (hment _ hu) (hment _ hw)
  · intro id b' hb i hi u hu
    rw [hslot]
    obtain ⟨b, hb, hi | ⟨p, args, rfl, hp, -⟩⟩ := hinst id b' i hb hi
    · exact h.results id b hb i hi u hu
    · exact h.results id b hb _ hp u hu
  · exact fun c hc => h.consts c (hment _ hc)
  · intro id b' hb u hu
    obtain ⟨b, hb, hi | ⟨p, args, heq, -⟩⟩ := hinst id b' _ hb hu
    · exact h.movs id b hb u hi
    · cases heq
  · intro id b' hb p hp r hr a ha
    obtain ⟨b, hb, hi | ⟨q, args, heq, hq, hsub⟩⟩ := hinst id b' _ hb hp
    · exact h.phis id b hb p hi r hr a ha
    · cases heq
      exact h.phis id b hb q hq r hr a (hsub a ha)

/-- A program stays well formed when its functions do, and keep their names and variables. -/
theorem Program.WellFormed.of_fewer (h : prog.WellFormed env) (hg : prog'.globals = prog.globals)
    (hnames : prog'.funcs.map Func.name = prog.funcs.map Func.name)
    (hallocs : prog'.funcs.map Func.allocs = prog.funcs.map Func.allocs)
    (hfuncs : ∀ f ∈ prog'.funcs, f.Ssa ∧ f.WellTyped env prog') : prog'.WellFormed env := by
  refine ⟨?_, ?_, fun f hf => (hfuncs f hf).1, fun f hf => (hfuncs f hf).2, ?_, ?_⟩
  · rw [hnames]
    exact h.names
  · rw [hg, List.flatMap_def, hallocs, ← List.flatMap_def]
    exact h.allocs
  · rw [hg]
    exact h.scalars
  · rw [hg]
    exact h.inits

end Ir
end Cact
