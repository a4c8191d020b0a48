import Mathlib.Data.Nat.Notation
import ProtectedMedia.Media.Session
import ProtectedMedia.Proofs.Media.Steps

/-!
# What a request makes of a source

A session answers one request after another. Each of its sources lives in a slot of its own, and there
are few things that a request can do to a slot: fill it with a new source, have its source perform a
command, mark one of the buffers of its source, or drop it.
-/
namespace ProtectedMedia.Session

section
variable {κ : Type} {s : Session κ} {n : ℕ} {source : MediaSource κ}

/-! ### Sources in their slots -/

theorem modify_of_fixed {α : Type} {l : List α} {m : ℕ} {f : α → α}
    (h : ∀ x, l[m]? = some x → f x = x) : l.modify m f = l := by
  refine List.ext_getElem? fun k => ?_
  by_cases hk : m = k
  · subst hk
    rw [List.getElem?_modify_eq]
    cases hx : l[m]? with
    | none => rfl
    | some x => simp [h x hx]
  · exact List.getElem?_modify_ne _ _ hk

theorem getElem?_modify_if {α : Type} (l : List α) (k e : ℕ) (f : α → α) :
    (l.modify k f)[e]? = l[e]?.map fun x => if k = e then f x else x := by
  by_cases hk : k = e
  · simp [hk]
  · simp [List.getElem?_modify_ne, hk]

/-- Something new in a list leaves all other places alone. -/
theorem getElem?_concat_of_ne {α : Type} {l : List α} {m : ℕ} (h : m ≠ l.length) (x : α) :
    (l ++ [x])[m]? = l[m]? := by
  rcases Nat.lt_or_gt_of_ne h with hlt | hgt
  · exact List.getElem?_append_left hlt
  · have hlen : (l ++ [x]).length ≤ m := by
      rw [List.length_append]
      exact Nat.succ_le_of_lt hgt
    rw [List.getElem?_eq_none hlen, List.getElem?_eq_none (Nat.le_of_lt hgt)]

theorem source?_eq_some :
    s.source? n = some source ↔ s.sources[n]? = some ⟨source, true⟩ := by
  unfold source?
  constructor
  · intro h
    split at h
    · rename_i slot hslot
      split at h
      · rename_i halive
        cases h
        rw [hslot, ← halive]
      · cases h
    · cases h
  · intro h
    simp [h]

@[simp] theorem getElem?_setSource (m : ℕ) :
    (s.setSource m source).sources[n]? =
      if m = n then s.sources[n]?.map fun slot => { slot with source := source }
      else s.sources[n]? := by
  by_cases hm : m = n
  · simp [setSource, hm]
  · simp [setSource, List.getElem?_modify_ne, hm]

theorem setSource_self (h : s.source? n = some source) : s.setSource n source = s := by
  have hsources : (s.setSource n source).sources = s.sources :=
    modify_of_fixed fun slot hslot => by
      rw [source?_eq_some.mp h] at hslot
      cases hslot
      rfl
  calc s.setSource n source = { s with sources := (s.setSource n source).sources } := rfl
    _ = s := by rw [hsources]

/-! ### Sources that come and go -/

theorem createSource_eq {controller : κ} {urls : List String} {url : String}
    (hurl : urls.find? (fun url => !s.registry.contains url) = some url) :
    s.createSource controller urls = (.ok (.number s.sources.length),
      { s with
        sources := s.sources ++ [⟨.create url controller, true⟩]
        registry := s.registry.insert url (some s.sources.length) }) := by
  have hfree : s.registry.contains url = false := by simpa using List.find?_some hurl
  unfold createSource
  simp [hurl, Registry.register, hfree]

theorem createSource_unavailable {controller : κ} {urls : List String}
    (hurl : urls.find? (fun url => !s.registry.contains url) = none) :
    s.createSource controller urls = (.error .unavailable, s) := by
  unfold createSource
  simp only [hurl]

theorem sources_dropSource (s : Session κ) (m : ℕ) :
    (s.dropSource m).2.sources = s.sources.modify m fun slot => { slot with alive := false } := by
  unfold dropSource
  cases hslot : s.sources[m]? with
  | none => exact (modify_of_fixed (by simp [hslot])).symm
  | some slot =>
      cases halive : slot.alive with
      | false =>
          simp only [halive]
          change s.sources = _
          refine (modify_of_fixed fun slot' hslot' => ?_).symm
          rw [hslot] at hslot'
          cases hslot'
          rw [← halive]
      | true =>
          simp only [halive]
          cases (s.registry.unregister slot.source.url).1 <;> rfl

@[simp] theorem ofRegistry_snd (result : Except Registry.Violation Unit × Registry) :
    (s.ofRegistry result).2 = { s with registry := result.2 } := by
  unfold ofRegistry
  split <;> rfl

/-! ### Commands -/

/-- How a session passes on the result of a command. -/
def passOn (s : Session κ) :
    Except MediaSource.Failure MediaSource.Answer → Except Failure Answer
  | .error e => .error (.source e)
  | .ok .nothing => .ok .nothing
  | .ok (.events events) => .ok (.events events)
  | .ok (.buffer _) => .ok (.number s.buffers.length)

/-- The buffers that a command of a source hands out. -/
def handedOut (n : ℕ) : Except MediaSource.Failure MediaSource.Answer → List (ℕ × ℕ)
  | .ok (.buffer number) => [(n, number)]
  | _ => []

theorem passOn_eq_error {r : Except MediaSource.Failure MediaSource.Answer}
    {e : MediaSource.Failure} (h : s.passOn r = .error (.source e)) : r = .error e := by
  cases r with
  | error e' =>
      cases h
      rfl
  | ok a => cases a <;> cases h

end

variable {κ : Type} [PipelineController κ] {s : Session κ} {n : ℕ} {source : MediaSource κ}

theorem command_unavailable (h : s.source? n = none) (c : MediaSource.Command) :
    s.command n c = (.error .unavailable, s) := by
  unfold command
  rw [h]

theorem command_eq (h : s.source? n = some source) (c : MediaSource.Command) :
    s.command n c = (s.passOn (source.perform c).1,
      { s.setSource n (source.perform c).2 with
        buffers := s.buffers ++ handedOut n (source.perform c).1 }) := by
  unfold command
  simp only [h]
  generalize source.perform c = result
  obtain ⟨r, source'⟩ := result
  cases r with
  | error e => simp [passOn, handedOut, setSource]
  | ok a => cases a <;> simp [passOn, handedOut, setSource]

/-! ### Requests -/

/-- A request with an answer leaves this in a slot. -/
inductive Leaves (s : Session κ) (n : ℕ) :
    Request κ → Except Failure Answer → Option (SourceSlot κ) → Prop
  | kept (r : Request κ) (a : Except Failure Answer)
      (hcommand : ∀ c, r = .command n c → a = .error .unavailable) :
      Leaves s n r a s.sources[n]?
  | created (controller : κ) (urls : List String) (url : String) (a : Except Failure Answer)
      (hfree : s.sources[n]? = none) :
      Leaves s n (.createSource controller urls) a (some ⟨.create url controller, true⟩)
  | commanded (source : MediaSource κ) (c : MediaSource.Command)
      (hsource : s.source? n = some source) :
      Leaves s n (.command n c) (s.passOn (source.perform c).1)
        (some ⟨(source.perform c).2, true⟩)
  | updatingSet (slot : SourceSlot κ) (b number : ℕ) (updating : Bool)
      (hslot : s.sources[n]? = some slot) :
      Leaves s n (.setUpdating b updating) (.ok .nothing)
        (some { slot with source := slot.source.setUpdating number updating })
  | dropped (slot : SourceSlot κ) (a : Except Failure Answer) (hslot : s.sources[n]? = some slot) :
      Leaves s n (.dropSource n) a (some { slot with alive := false })

variable {r : Request κ} {a : Except Failure Answer} {slots : List (SourceSlot κ)}

/-- Most requests leave all slots alone. -/
theorem leaves_of_sources (hsources : slots = s.sources) (hcommand : ∀ c, r ≠ .command n c) :
    Leaves s n r a slots[n]? := by
  rw [hsources]
  exact .kept r a fun c heq => absurd heq (hcommand c)

theorem leaves_createSource (controller : κ) (urls : List String) :
    Leaves s n (.createSource controller urls) (s.createSource controller urls).1
      (s.createSource controller urls).2.sources[n]? := by
  cases hurl : urls.find? fun url => !s.registry.contains url with
  | none =>
      rw [createSource_unavailable hurl]
      exact leaves_of_sources rfl (by simp)
  | some url =>
      rw [createSource_eq hurl]
      by_cases hn : n = s.sources.length
      · subst hn
        simpa using Leaves.created controller urls url (.ok (.number s.sources.length))
          (List.getElem?_eq_none (Nat.le_refl s.sources.length))
      · rw [getElem?_concat_of_ne hn]
        exact .kept _ _ (by simp)

theorem leaves_dropSource (m : ℕ) :
    Leaves s n (.dropSource m) (s.dropSource m).1 (s.dropSource m).2.sources[n]? := by
  rw [sources_dropSource]
  by_cases hm : m = n
  · subst hm
    cases hslot : s.sources[m]? with
    | none => simpa [hslot] using Leaves.kept (s := s) (n := m) (.dropSource m) _ (by simp)
    | some slot => simpa [hslot] using Leaves.dropped slot _ hslot
  · rw [List.getElem?_modify_ne _ _ hm]
    exact .kept _ _ (by simp)

theorem leaves_command (m : ℕ) (c : MediaSource.Command) :
    Leaves s n (.command m c) (s.command m c).1 (s.command m c).2.sources[n]? := by
  cases hsource : s.source? m with
  | none =>
      rw [command_unavailable hsource]
      exact .kept _ _ fun _ _ => rfl
  | some source =>
      rw [command_eq hsource]
      by_cases hm : m = n
      · subst hm
        have hslot : (s.setSource m (source.perform c).2).sources[m]? =
            some ⟨(source.perform c).2, true⟩ := by
          simp [source?_eq_some.mp hsource]
        have hleaves := Leaves.commanded source c hsource
        rwa [← hslot] at hleaves
      · have hslot : (s.setSource m (source.perform c).2).sources[n]? = s.sources[n]? := by
          simp [hm]
        have hkept := Leaves.kept (s := s) (n := n) (.command m c) (s.passOn (source.perform c).1)
          fun c' heq => absurd (Request.command.inj heq).1 hm
        rwa [← hslot] at hkept

theorem leaves_setUpdating (b : ℕ) (updating : Bool) :
    Leaves s n (.setUpdating b updating) (s.perform (.setUpdating b updating)).1
      (s.perform (.setUpdating b updating)).2.sources[n]? := by
  simp only [perform]
  cases hbuffer : s.buffers[b]? with
  | none => exact leaves_of_sources rfl (by simp)
  | some buffer =>
      obtain ⟨m, number⟩ := buffer
      cases hslot : s.sources[m]? with
      | none => exact leaves_of_sources (by simp [hslot]) (by simp)
      | some slot =>
          by_cases hm : m = n
          · subst hm
            simpa [hslot] using Leaves.updatingSet slot b number updating hslot
          · simpa [hslot, hm] using Leaves.kept (s := s) (n := n) (.setUpdating b updating)
              (.ok .nothing) (by simp)

/-- Requests do this to a slot, and nothing else. -/
theorem leaves_perform (s : Session κ) (n : ℕ) (r : Request κ) :
    Leaves s n r (s.perform r).1 (s.perform r).2.sources[n]? := by
  cases r with
  | createSource controller urls => exact leaves_createSource controller urls
  | dropSource m => exact leaves_dropSource m
  | command m c => exact leaves_command m c
  | setUpdating b updating => exact leaves_setUpdating b updating
  | createElement | dropElement | lookup => exact leaves_of_sources rfl (by simp)
  | drainElement e =>
      refine leaves_of_sources ?_ (by simp)
      simp only [perform]
      split <;> rfl
  | findBuffer m type =>
      refine leaves_of_sources ?_ (by simp)
      simp only [perform]
      split <;> rfl
  | signal client signal =>
      refine leaves_of_sources ?_ (by simp)
      simp only [perform, send]
      split <;> rfl
  | register | unregister => exact leaves_of_sources (by simp [perform]) (by simp)

/-! ### Requests one after another -/

/-- The session after requests, those that failed included. -/
def after (s : Session κ) (requests : List (Request κ)) : Session κ :=
  requests.foldl (fun s r => (s.perform r).2) s

@[simp] theorem after_nil (s : Session κ) : s.after [] = s := rfl

@[simp] theorem after_cons (s : Session κ) (r : Request κ) (requests : List (Request κ)) :
    s.after (r :: requests) = (s.perform r).2.after requests := rfl

/-- What was requested, and what the answers were. -/
def transcript (s : Session κ) : List (Request κ) → List (Request κ × Except Failure Answer)
  | [] => []
  | r :: requests => (r, (s.perform r).1) :: (s.perform r).2.transcript requests

/-- The source has become what it is by commands alone. -/
def Grown (source : MediaSource κ) : Prop :=
  ∃ url controller commands, source = (MediaSource.create url controller).after commands

theorem Grown.perform (h : Grown source) (c : MediaSource.Command) :
    Grown (source.perform c).2 := by
  obtain ⟨url, controller, commands, rfl⟩ := h
  refine ⟨url, controller, commands ++ [c], ?_⟩
  simp [MediaSource.after]

theorem grown_of_leaves {slot : Option (SourceSlot κ)} (hleaves : Leaves s n r a slot)
    (h : ∀ x ∈ s.sources[n]?, Grown x.source) : ∀ x ∈ slot, Grown x.source := by
  cases hleaves with
  | kept => exact h
  | created controller urls url =>
      rintro x ⟨⟩
      exact ⟨url, controller, [], rfl⟩
  | commanded source c hsource =>
      rintro x ⟨⟩
      exact (h _ (source?_eq_some.mp hsource)).perform c
  | updatingSet slot b number updating hslot =>
      rintro x ⟨⟩
      exact (h slot hslot).perform (.setUpdating number updating)
  | dropped slot a hslot =>
      rintro x ⟨⟩
      exact h slot hslot

/-- Whatever is requested of a session, its sources go through nothing but commands. -/
theorem grown_after (requests : List (Request κ))
    (h : ∀ n : ℕ, ∀ x ∈ s.sources[n]?, Grown (SourceSlot.source x)) :
    ∀ n : ℕ, ∀ x ∈ (s.after requests).sources[n]?, Grown (SourceSlot.source x) := by
  induction requests generalizing s with
  | nil => exact h
  | cons r requests ih => exact ih fun n => grown_of_leaves (leaves_perform s n r) (h n)

end ProtectedMedia.Session
