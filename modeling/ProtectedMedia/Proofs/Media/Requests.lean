import ProtectedMedia.Proofs.Media.Sessions

/-!
# What a request does to each part of a session

The sources, the buffers and the registry of a session after a request, each as a function of the
request and of the session before it.
-/
namespace ProtectedMedia.Session

/-- The request is a question, or it is about an element. -/
def Request.isQuiet {κ : Type} : Request κ → Bool
  | .createElement | .dropElement _ | .drainElement _ => true
  | .findBuffer _ _ | .signal _ _ | .lookup _ => true
  | _ => false

/-- The first of the urls that nothing is registered under. -/
def freshUrl? {κ : Type} (s : Session κ) (urls : List String) : Option String :=
  urls.find? fun url => !s.registry.contains url

variable {κ : Type} [PipelineController κ] {s : Session κ}

theorem perform_quiet {r : Request κ} (h : r.isQuiet = true) :
    (s.perform r).2 = { s with elements := (s.perform r).2.elements } := by
  cases r with
  | createElement | dropElement | lookup => rfl
  | drainElement e =>
      simp only [perform]
      split <;> rfl
  | findBuffer m type =>
      simp only [perform]
      split <;> rfl
  | signal client signal =>
      simp only [perform, send]
      split <;> rfl
  | createSource | dropSource | command | setUpdating | register | unregister => cases h

theorem perform_setUpdating (s : Session κ) (b : ℕ) (updating : Bool) :
    (s.perform (.setUpdating b updating)).2 = { s with
      sources := (s.buffers[b]?).elim s.sources fun buffer => s.sources.modify buffer.1 fun slot =>
        { slot with source := slot.source.setUpdating buffer.2 updating } } := by
  simp only [perform]
  cases s.buffers[b]? with
  | none => rfl
  | some buffer =>
      obtain ⟨m, number⟩ := buffer
      cases hslot : s.sources[m]? with
      | none => simp [hslot, modify_of_fixed]
      | some slot =>
          simp only [hslot, setSource, Option.elim_some, Session.mk.injEq, and_true]
          refine List.ext_getElem? fun n => ?_
          by_cases hn : m = n
          · subst hn
            simp [hslot]
          · simp [hn, List.getElem?_modify_ne]

theorem sources_command (m : ℕ) (c : MediaSource.Command) :
    (s.command m c).2.sources = s.sources.modify m fun slot =>
      if slot.alive then { slot with source := (slot.source.perform c).2 } else slot := by
  cases hsource : s.source? m with
  | none =>
      rw [command_unavailable hsource]
      refine (modify_of_fixed fun slot hslot => ?_).symm
      cases halive : slot.alive with
      | false => rfl
      | true =>
          have hsome : s.source? m = some slot.source :=
            source?_eq_some.mpr (by rw [hslot, ← halive])
          rw [hsource] at hsome
          cases hsome
  | some source =>
      rw [command_eq hsource]
      refine List.ext_getElem? fun n => ?_
      by_cases hn : m = n
      · subst hn
        simp [source?_eq_some.mp hsource]
      · simp [hn, List.getElem?_modify_ne]

/-- Requests do this to the sources. -/
theorem sources_perform (s : Session κ) (r : Request κ) :
    (s.perform r).2.sources = match r with
      | .createSource controller urls =>
          s.sources ++ ((s.freshUrl? urls).map fun url => ⟨.create url controller, true⟩).toList
      | .dropSource m => s.sources.modify m fun slot => { slot with alive := false }
      | .command m c => s.sources.modify m fun slot =>
          if slot.alive then { slot with source := (slot.source.perform c).2 } else slot
      | .setUpdating b updating => (s.buffers[b]?).elim s.sources fun buffer =>
          s.sources.modify buffer.1 fun slot =>
            { slot with source := slot.source.setUpdating buffer.2 updating }
      | _ => s.sources := by
  cases r with
  | createSource controller urls =>
      change (s.createSource controller urls).2.sources = _
      cases hurl : s.freshUrl? urls with
      | none => simp [createSource_unavailable hurl, hurl]
      | some url => simp [createSource_eq hurl, hurl]
  | dropSource m => exact sources_dropSource s m
  | command m c => exact sources_command m c
  | setUpdating b updating => rw [perform_setUpdating]
  | register | unregister => simp [perform]
  | createElement | dropElement | drainElement | findBuffer | signal | lookup =>
      rw [perform_quiet rfl]

/-- Requests do this to one source. -/
theorem slot_perform (s : Session κ) (r : Request κ) (n : ℕ) :
    (s.perform r).2.sources[n]? = match r with
      | .createSource controller urls =>
          if n = s.sources.length then
            (s.freshUrl? urls).map fun url => ⟨.create url controller, true⟩
          else s.sources[n]?
      | .dropSource m =>
          s.sources[n]?.map fun slot => if m = n then { slot with alive := false } else slot
      | .command m c => s.sources[n]?.map fun slot =>
          if m = n ∧ slot.alive = true then { slot with source := (slot.source.perform c).2 }
          else slot
      | .setUpdating b updating => s.sources[n]?.map fun slot =>
          (s.buffers[b]?).elim slot fun buffer =>
            if buffer.1 = n then { slot with source := slot.source.setUpdating buffer.2 updating }
            else slot
      | _ => s.sources[n]? := by
  rw [sources_perform]
  cases r with
  | createSource controller urls =>
      simp only
      by_cases hn : n = s.sources.length
      · subst hn
        cases s.freshUrl? urls <;> simp
      · cases s.freshUrl? urls with
        | none => simp [hn]
        | some url => simp [getElem?_concat_of_ne hn, hn]
  | dropSource m => exact getElem?_modify_if _ _ _ _
  | command m c =>
      simp only [getElem?_modify_if]
      by_cases hm : m = n <;> simp [hm]
  | setUpdating b updating =>
      simp only
      cases s.buffers[b]? with
      | none => simp
      | some buffer => exact getElem?_modify_if _ _ _ _
  | _ => rfl

/-- Requests do this to the buffers. -/
theorem buffers_perform (s : Session κ) (r : Request κ) :
    (s.perform r).2.buffers = match r with
      | .command m c =>
          s.buffers ++ (s.source? m).elim [] fun source => handedOut m (source.perform c).1
      | _ => s.buffers := by
  cases r with
  | createSource controller urls =>
      change (s.createSource controller urls).2.buffers = _
      cases hurl : s.freshUrl? urls with
      | none => rw [createSource_unavailable hurl]
      | some url => rw [createSource_eq hurl]
  | dropSource m =>
      simp only [perform, dropSource]
      split
      · rfl
      · split
        · rfl
        · split <;> rfl
  | command m c =>
      change (s.command m c).2.buffers = _
      cases hsource : s.source? m with
      | none => simp [command_unavailable hsource, hsource]
      | some source => simp [command_eq hsource, hsource]
  | setUpdating b updating => rw [perform_setUpdating]
  | register | unregister => simp [perform]
  | createElement | dropElement | drainElement | findBuffer | signal | lookup =>
      rw [perform_quiet rfl]

omit [PipelineController κ] in
/-- A source that is dropped takes its url along. -/
theorem registry_dropSource (s : Session κ) (m : ℕ) :
    (s.dropSource m).2.registry =
      (s.source? m).elim s.registry fun source => s.registry.erase source.url := by
  unfold dropSource source?
  cases s.sources[m]? with
  | none => rfl
  | some slot =>
      obtain ⟨source, alive⟩ := slot
      cases alive with
      | false => rfl
      | true =>
          simp only [Registry.unregister]
          cases s.registry.contains source.url <;> rfl

/-- Requests do this to the registry. -/
theorem registry_perform (s : Session κ) (r : Request κ) :
    (s.perform r).2.registry = match r with
      | .createSource _ urls =>
          (s.freshUrl? urls).elim s.registry (s.registry.insert · (some s.sources.length))
      | .dropSource m =>
          (s.source? m).elim s.registry fun source => s.registry.erase source.url
      | .register url source => s.registry.insert url source
      | .unregister url => s.registry.erase url
      | _ => s.registry := by
  cases r with
  | createSource controller urls =>
      change (s.createSource controller urls).2.registry = _
      cases hurl : s.freshUrl? urls with
      | none => simp [createSource_unavailable hurl, hurl]
      | some url => simp [createSource_eq hurl, hurl]
  | dropSource m => exact registry_dropSource s m
  | command m c =>
      change (s.command m c).2.registry = _
      cases hsource : s.source? m with
      | none => rw [command_unavailable hsource]
      | some source => rw [command_eq hsource]; rfl
  | setUpdating b updating => rw [perform_setUpdating]
  | register | unregister => simp [perform, Registry.register, Registry.unregister]
  | createElement | dropElement | drainElement | findBuffer | signal | lookup =>
      rw [perform_quiet rfl]

/-! ### Requests that break a promise to the registry -/

/-- The request breaks this promise. -/
inductive Breaks {κ : Type} (s : Session κ) : Request κ → Registry.Violation → Prop
  | register {url : String} {target : Option ℕ} (h : s.registry.contains url = true) :
      Breaks s (.register url target) (.registeredTwice url)
  | unregister {url : String} (h : s.registry.contains url = false) :
      Breaks s (.unregister url) (.notRegistered url)
  | dropSource {m : ℕ} {source : MediaSource κ} (hsource : s.source? m = some source)
      (h : s.registry.contains source.url = false) :
      Breaks s (.dropSource m) (.notRegistered source.url)

theorem perform_register (s : Session κ) (url : String) (target : Option ℕ) :
    s.perform (.register url target) =
      (if s.registry.contains url then .error (.registry (.registeredTwice url)) else .ok .nothing,
        { s with registry := s.registry.insert url target }) := by
  simp only [perform, Registry.register]
  cases s.registry.contains url <;> rfl

theorem perform_unregister (s : Session κ) (url : String) :
    s.perform (.unregister url) =
      (if s.registry.contains url then .ok .nothing else .error (.registry (.notRegistered url)),
        { s with registry := s.registry.erase url }) := by
  simp only [perform, Registry.unregister]
  cases s.registry.contains url <;> rfl

omit [PipelineController κ] in
theorem dropSource_fst (s : Session κ) (m : ℕ) :
    (s.dropSource m).1 = if m < s.sources.length then
      (s.source? m).elim (.ok .nothing) fun source =>
        if s.registry.contains source.url then .ok .nothing
        else .error (.registry (.notRegistered source.url))
    else .error .unavailable := by
  unfold dropSource source?
  by_cases hm : m < s.sources.length
  · rw [if_pos hm, List.getElem?_eq_getElem hm]
    cases halive : s.sources[m].alive with
    | false => simp [halive]
    | true =>
        cases hurl : s.registry.contains s.sources[m].source.url <;>
          simp [halive, Registry.unregister, hurl]
  · rw [if_neg hm, List.getElem?_eq_none (Nat.le_of_not_lt hm)]

/-- Nothing is reported as broken that is not. -/
theorem breaks_of_perform {r : Request κ} {v : Registry.Violation}
    (hv : (s.perform r).1 = .error (.registry v)) : s.Breaks r v := by
  cases r with
  | register url target =>
      rw [perform_register] at hv
      split at hv
      · rename_i h
        cases hv
        exact .register h
      · cases hv
  | unregister url =>
      rw [perform_unregister] at hv
      split at hv
      · cases hv
      · rename_i h
        cases hv
        exact .unregister (eq_false_of_ne_true h)
  | dropSource m =>
      change (s.dropSource m).1 = _ at hv
      rw [dropSource_fst] at hv
      split at hv
      · cases hsource : s.source? m with
        | none =>
            rw [hsource] at hv
            cases hv
        | some source =>
            rw [hsource, Option.elim_some] at hv
            split at hv
            · cases hv
            · rename_i h
              cases hv
              exact .dropSource hsource (eq_false_of_ne_true h)
      · cases hv
  | createSource controller urls =>
      change (s.createSource controller urls).1 = _ at hv
      cases hurl : s.freshUrl? urls with
      | none => simp [createSource_unavailable hurl] at hv
      | some url => simp [createSource_eq hurl] at hv
  | command m c =>
      change (s.command m c).1 = _ at hv
      cases hsource : s.source? m with
      | none => simp [command_unavailable hsource] at hv
      | some source =>
          rw [command_eq hsource] at hv
          unfold passOn at hv
          split at hv <;> simp at hv
  | drainElement | findBuffer | setUpdating =>
      simp only [perform] at hv
      repeat' split at hv
      all_goals simp at hv
  | createElement | dropElement | signal | lookup => simp [perform] at hv

/-- A promise that is broken is reported. -/
theorem Breaks.reported {r : Request κ} {v : Registry.Violation} (h : s.Breaks r v) :
    (s.perform r).1 = .error (.registry v) := by
  cases h with
  | register h => rw [perform_register, if_pos h]
  | unregister h => rw [perform_unregister, if_neg (by simp [h])]
  | @dropSource m source hsource h =>
      obtain ⟨hm, -⟩ := List.getElem?_eq_some_iff.mp (source?_eq_some.mp hsource)
      change (s.dropSource m).1 = _
      rw [dropSource_fst, if_pos hm, hsource, Option.elim_some, if_neg (by simp [h])]

end ProtectedMedia.Session
