import ProtectedMedia.Proofs.Box.Shown
import ProtectedMedia.Proofs.Box.Steps
import ProtectedMedia.Proofs.Box.Visits

/-!
# Lenient walks

A lenient walk differs from a strict one only at a declared box that runs past the end of the data.
There the strict walk ends, and the lenient one takes what is there of the box and goes on. So it
meets everything that the strict walk meets, in the same order and with the same contents.
-/
namespace ProtectedMedia

/-- What a lenient reader does, unless a box runs past the end. -/
def UpToEnd {α : Type} (strict lenient : Except BoxFault α) : Prop :=
  strict = lenient ∨ ∃ type, strict = .error (.pastEnd type)

namespace UpToEnd

variable {α β : Type} {c : Cursor} {r r' : Reader BoxFault α} {f f' : α → Reader BoxFault β}

theorem refl (x : Except BoxFault α) : UpToEnd x x := .inl rfl

theorem bind (hr : UpToEnd (r c) (r' c)) (hf : ∀ a c', UpToEnd (f a c') (f' a c')) :
    UpToEnd ((r >>= f) c) ((r' >>= f') c) := by
  rcases hr with hsame | ⟨type, hpast⟩
  · cases hread : r c with
    | error fault =>
        left
        rw [Reader.bind_of_error hread, Reader.bind_of_error (hsame ▸ hread)]
    | ok p =>
        rw [Reader.bind_of_ok hread, Reader.bind_of_ok (hsame ▸ hread)]
        exact hf p.1 p.2
  · exact .inr ⟨type, Reader.bind_of_error hpast⟩

theorem map (g : α → β) (hr : UpToEnd (r c) (r' c)) : UpToEnd ((g <$> r) c) ((g <$> r') c) := by
  change UpToEnd ((r >>= fun a => pure (g a)) c) ((r' >>= fun a => pure (g a)) c)
  exact hr.bind fun _ _ => refl _

end UpToEnd

namespace Walk

variable {layout : Layout} {lenient : Bool} {base : ℕ} {limit : Option ℕ} {c : Cursor}

/-! ### One box -/

end Walk

/-! ### All boxes -/

namespace Trace

/-- What a lenient walk meets, up to a box that runs past the end. -/
def UpToEnd (strict lenient : Trace) : Prop :=
  strict = lenient ∨
    (∃ type, strict.fault = some (.pastEnd type)) ∧ strict.events <+: lenient.events

namespace UpToEnd

variable {strict lenient more more' : Trace}

theorem after (es : List Event) (h : strict.UpToEnd lenient) :
    (strict.after es).UpToEnd (lenient.after es) := by
  rcases h with rfl | ⟨hpast, hevents⟩
  · exact .inl rfl
  · exact .inr ⟨hpast, (List.prefix_append_right_inj es).mpr hevents⟩

theorem before (h : strict.UpToEnd lenient)
    (hmore : strict.fault = none → more.UpToEnd more') :
    (strict.before more).UpToEnd (lenient.before more') := by
  rcases h with rfl | ⟨⟨type, hpast⟩, hevents⟩
  · cases hfault : strict.fault with
    | none =>
        rw [before_of_done hfault, before_of_done hfault]
        exact (hmore hfault).after _
    | some fault =>
        rw [before_of_fault hfault, before_of_fault hfault]
        exact .inl rfl
  · rw [before_of_fault hpast]
    exact .inr ⟨⟨type, hpast⟩, hevents.trans (prefix_events_before _ _)⟩

end UpToEnd

end Trace

namespace Walk

end Walk

/-! ### Handlers -/

namespace Trace

variable {strict lenient : Trace} {τ : Type}

/-- A handler sees no difference, unless the strict walk ends at a box that runs past the end. -/
theorem UpToEnd.run (h : strict.UpToEnd lenient) (handler : τ → Event → Except Error τ)
    (start : τ) :
    (strict.run handler start = lenient.run handler start ∧
        shown handler start strict.events = shown handler start lenient.events) ∨
      ∃ type, strict.run handler start = .error (.box (.pastEnd type)) := by
  rcases h with rfl | ⟨⟨type, hpast⟩, hevents⟩
  · exact .inl ⟨rfl, rfl⟩
  · cases hfold : strict.events.foldlM handler start with
    | error error =>
        obtain ⟨hstrict, hlenient⟩ := run_of_failed hevents hfold
        obtain ⟨rest, hrest⟩ := hevents
        refine .inl ⟨hstrict.trans hlenient.symm, ?_⟩
        rw [← hrest, shown_append, hfold, List.append_nil]
    | ok last =>
        right
        refine ⟨type, ?_⟩
        rw [run_of_passed hfold, hpast]

end Trace

namespace Walk

open Trace

variable {τ : Type}

end Walk

end ProtectedMedia
