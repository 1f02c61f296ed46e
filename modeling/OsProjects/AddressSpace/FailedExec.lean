import OsProjects.AddressSpace.SoundImage

namespace OsProjects
namespace AddressSpace

open Machine

/-!
# What a failed `exec` leaves behind

`exec` assigns `sz2` as soon as the stack page of the new image is allocated, and
it can still fail while it copies the arguments.  The caller then keeps its page
table but has lost the lower part of its own stack region.  Everything else is as
before, unless the file has made the loader copy over memory of the caller.
-/

/-- The process and all memory that it has mapped are the same. -/
structure Unchanged (s t : Vm) : Prop where
  proc : t.proc = s.proc
  entries : forall v, v < USERPAGES -> pte t s.proc.pgdir v = pte s s.proc.pgdir v
  contents : forall v, v < USERPAGES -> Present (pte s s.proc.pgdir v) ->
    t.mem (PTE_ADDR (pte s s.proc.pgdir v)) = s.mem (PTE_ADDR (pte s s.proc.pgdir v))

/-- The caller does not change if its pages keep their roles and their contents, except for a
page at address 0 that it does not have. -/
theorem Space.unchanged {owner after : Nat -> Role} {s t : Vm} {pages : Nat -> Prop}
    (space : Space owner s s.proc.pgdir pages) (proc : t.proc = s.proc)
    (role : forall p, (owner p).Of s.proc.pgdir -> after p = owner p)
    (contents : forall p, (owner p).Of s.proc.pgdir ->
      (owner p = .user s.proc.pgdir 0 -> pages 0) -> t.mem p = s.mem p) : Unchanged s t := by
  have kept := space.dir.kept role (fun p structural => by
    rcases structural with self | ⟨i, table⟩
    · exact contents p (by rw [self]; exact rfl) (by rw [self]; exact nofun)
    · exact contents p (by rw [table]; exact rfl) (by rw [table]; exact nofun))
  refine ⟨proc, fun v isUser => kept.2.2 v (userpage_table isUser).2.2, fun v isUser present => ?_⟩
  have mine := space.dir.user v isUser present
  refine contents _ (by rw [mine]; exact rfl) (fun same => ?_)
  rw [mine] at same
  rw [← (Role.user.inj same).2]
  exact (space.user v isUser).mp present

/-- The pages of the caller are neither free nor pages of the directory of a new space. -/
theorem Space.untouched {owner : Nat -> Role} {s : Vm} {d e p : Nat} {pages : Nat -> Prop}
    (space : Space owner s e pages) (notDir : owner d ≠ .dir d) (mine : (owner p).Of e) :
    ¬ (owner p = .free ∨ (owner p).Of d) := by
  refine Role.Of.untouched (fun same => notDir ?_) mine
  rw [same]
  exact space.dir.self

/-- The memory of a caller without a page at address 0 does not change while a new space is
built beside it. -/
theorem Beside.unchanged {owner after : Nat -> Role} {s t : Vm} {d : Nat} {pages : Nat -> Prop}
    (space : Space owner s s.proc.pgdir pages) (zero : ¬ pages 0) (notDir : owner d ≠ .dir d)
    (beside : Beside d s.proc.pgdir owner after s t) (proc : t.proc = s.proc) : Unchanged s t := by
  have untouched := fun p => space.untouched (p := p) notDir
  exact space.unchanged proc (fun p mine => beside.role p (untouched p mine))
    (fun p mine onlyMapped => beside.contents p (untouched p mine)
    (fun same => zero (onlyMapped same)))

/-! ## Files whose segments are safe -/

/-- How a failed `exec` leaves the machine when it has written free pages and the pages of the
directory `d` only: the process is the same, or it has its new value of `sz2`. -/
structure Withdrawn (owner : Nat -> Role) (s : Vm) (buildable : Prop) (t : Vm) : Prop where
  framed : Exists fun after => Exists fun d => owner d ≠ .dir d ∧
    Framed (fun r => r = .free ∨ r.Of d) owner after s t
  proc : (t.proc = s.proc ∧ ¬ buildable) ∨ (t.proc = s.proc.withStack ∧ buildable)

/-- The memory of the caller is the same. -/
theorem Withdrawn.unchanged {owner : Nat -> Role} {s t : Vm} {buildable : Prop}
    {pages : Nat -> Prop} (withdrawn : Withdrawn owner s buildable t)
    (space : Space owner s s.proc.pgdir pages) (proc : t.proc = s.proc) : Unchanged s t := by
  rcases withdrawn.framed with ⟨after, d, notDir, framed⟩
  have untouched := fun p => space.untouched (p := p) notDir
  exact space.unchanged proc (fun p mine => framed.role p (untouched p mine))
    (fun p mine _ => framed.contents p (untouched p mine))

/-! ## The caller after a failed call -/

end AddressSpace
end OsProjects
