import ProtectedMedia.Proofs.Media.Registration

/-!
# What a broken promise does to the registry

Registering a url twice, unregistering one that is not registered, and dropping a source whose url is
not registered are reported. A report comes too late for the entry of a url that is registered twice,
which has been replaced by then; it leaves all other entries as they were, and it never adds or takes
away a url.
-/
namespace ProtectedMedia

namespace Registry
variable {r r' : Registry} {url other : String}

theorem find?_insert (r : Registry) (url : String) (target : Option ℕ) (other : String) :
    (r.insert url target).find? other = if other = url then some target else r.find? other := by
  refine Option.ext fun target' => ?_
  rw [find?_eq_some, mem_insert, Prod.mk.injEq]
  by_cases h : other = url
  · simp [h, eq_comm]
  · simp [h, find?_eq_some]

theorem contains_insert (r : Registry) (target : Option ℕ) (h : r.contains url = true)
    (other : String) : (r.insert url target).contains other = r.contains other := by
  rw [contains, find?_insert]
  split
  · rename_i hother
    rw [hother, h]
    rfl
  · rfl

theorem erase_of_absent (h : r.contains url = false) : r.erase url = r := by
  have hkept : ∀ entry ∈ r.entries, decide (entry.1 ≠ url) = true := by
    rintro ⟨other, target⟩ hmem
    refine decide_eq_true fun hother => ?_
    have hcontains : r.contains url = true := contains_iff.mpr ⟨target, by rwa [← hother]⟩
    rw [h] at hcontains
    cases hcontains
  obtain ⟨entries, distinct⟩ := r
  simp only [erase, List.filter_eq_self.mpr hkept]

/-- The number of entries is the number of urls. -/
theorem size_eq_of_contains (h : ∀ url, r.contains url = r'.contains url) : r.size = r'.size := by
  have hkeys : (r.entries.map Prod.fst).Perm (r'.entries.map Prod.fst) := by
    refine (List.perm_ext_iff_of_nodup r.nodup_keys r'.nodup_keys).mpr fun url => ?_
    have hurl := congrArg (· = true) (h url)
    simp only [contains_iff, eq_iff_iff] at hurl
    simpa using hurl
  simpa [size] using hkeys.length_eq

end Registry

namespace Session

/-- The source, if any, that the request registers for the url. -/
def Request.target? {κ : Type} (url : String) : Request κ → Option (Option ℕ)
  | .register other target => if url = other then some target else none
  | _ => none

/-- The source that the last of the requests to register the url registers for it. -/
def lastTarget? {κ : Type} (url : String) : List (Request κ) → Option (Option ℕ)
  | [] => none
  | r :: requests => (lastTarget? url requests).or (r.target? url)

variable {κ : Type} [PipelineController κ] {s : Session κ} {r : Request κ} {v : Registry.Violation}

theorem Breaks.find?_eq (h : s.Breaks r v) (url : String) :
    (s.perform r).2.registry.find? url = (r.target? url).or (s.registry.find? url) := by
  rw [registry_perform]
  cases h with
  | @register other target h =>
      simp only [Registry.find?_insert, Request.target?]
      split <;> rfl
  | unregister h =>
      simp only [Registry.erase_of_absent h]
      rfl
  | dropSource hsource h =>
      simp only [hsource, Option.elim_some, Registry.erase_of_absent h]
      rfl

theorem Breaks.contains_eq (h : s.Breaks r v) (url : String) :
    (s.perform r).2.registry.contains url = s.registry.contains url := by
  rw [registry_perform]
  cases h with
  | register h => exact Registry.contains_insert _ _ h url
  | unregister h => simp only [Registry.erase_of_absent h]
  | dropSource hsource h => simp only [hsource, Option.elim_some, Registry.erase_of_absent h]

/-- One broken promise after another: each url stands for what the last request to register it asked
for, if there was any. -/
theorem find?_after_violations (s : Session κ) (requests : List (Request κ))
    (h : ∀ entry ∈ s.transcript requests, ∃ v, entry.2 = .error (.registry v)) (url : String) :
    (s.after requests).registry.find? url =
      (lastTarget? url requests).or (s.registry.find? url) := by
  induction requests generalizing s with
  | nil => rfl
  | cons r requests ih =>
      rw [transcript, List.forall_mem_cons] at h
      obtain ⟨⟨v, hv⟩, hrest⟩ := h
      rw [after_cons, ih _ hrest, (breaks_of_perform hv).find?_eq url, ← Option.or_assoc]
      rfl

theorem contains_after_violations (s : Session κ) (requests : List (Request κ))
    (h : ∀ entry ∈ s.transcript requests, ∃ v, entry.2 = .error (.registry v)) (url : String) :
    (s.after requests).registry.contains url = s.registry.contains url := by
  induction requests generalizing s with
  | nil => rfl
  | cons r requests ih =>
      rw [transcript, List.forall_mem_cons] at h
      obtain ⟨⟨v, hv⟩, hrest⟩ := h
      rw [after_cons, ih _ hrest, (breaks_of_perform hv).contains_eq url]

omit [PipelineController κ] in
theorem lookup_of_find? {url : String} {target : Option ℕ}
    (h : s.registry.find? url = some target) :
    s.lookup url = target.filter fun n => (s.source? n).isSome := by
  unfold lookup
  rw [h]
  cases target with
  | none => rfl
  | some n => rfl

/-- A url that is registered a second time is reported, and it stands for the second source from then
on; nothing else changes. Nothing at all changes when a url is unregistered that is not registered.
However many promises to the registry are broken one after the other, no url is added or taken away,
and each stands for the source that it was last registered for, in vain or not. -/
theorem violations_spare_other_urls (s : Session κ) :
    (∀ url target, s.registry.contains url = true →
      (s.perform (.register url target)).1 = .error (.registry (.registeredTwice url)) ∧
      (s.perform (.register url target)).2 =
        { s with registry := s.registry.insert url target } ∧
      (s.perform (.register url target)).2.lookup url =
        (target.filter fun n => (s.source? n).isSome) ∧
      ∀ other ≠ url,
        (s.perform (.register url target)).2.registry.find? other = s.registry.find? other) ∧
    (∀ url, s.registry.contains url = false →
      s.perform (.unregister url) = (.error (.registry (.notRegistered url)), s)) ∧
    ∀ requests, (∀ entry ∈ s.transcript requests, ∃ v, entry.2 = .error (.registry v)) →
      (∀ url, (s.after requests).registry.find? url =
        (lastTarget? url requests).or (s.registry.find? url)) ∧
      (∀ url, (s.after requests).registry.contains url = s.registry.contains url) ∧
      (s.after requests).registry.size = s.registry.size := by
  refine ⟨fun url target h => ?_, fun url h => ?_, fun requests h => ⟨?_, ?_, ?_⟩⟩
  · have hregister := perform_register s url target
    rw [if_pos h] at hregister
    have hbreaks : s.Breaks (.register url target) (.registeredTwice url) := .register h
    have hfound := hbreaks.find?_eq
    refine ⟨by rw [hregister], by rw [hregister], ?_, fun other hother => ?_⟩
    · have hurl : (s.perform (.register url target)).2.registry.find? url = some target := by
        rw [hfound, Request.target?, if_pos rfl, Option.some_or]
      rw [lookup_of_find? hurl, hregister]
      rfl
    · rw [hfound, Request.target?, if_neg hother, Option.none_or]
  · rw [perform_unregister, if_neg (by simp [h]), Registry.erase_of_absent h]
  · exact find?_after_violations s requests h
  · exact contains_after_violations s requests h
  · exact Registry.size_eq_of_contains (contains_after_violations s requests h)

/-- Two sources, registered under the urls that they were created with. -/
def twoSources : Session BasicPipeline :=
  empty.after [.createSource .initial ["blob:a"], .createSource .initial ["blob:b"]]

/-- Both urls are registered again, one of them twice, and one that is not registered is taken away. -/
def brokenPromises : List (Request BasicPipeline) :=
  [.register "blob:a" (some 1), .unregister "blob:c", .register "blob:b" none,
    .register "blob:a" none, .register "blob:a" (some 0)]

theorem violations_spare_other_urls_repeated :
    (∀ entry ∈ twoSources.transcript brokenPromises, ∃ v, entry.2 = .error (.registry v)) ∧
      (twoSources.after brokenPromises).registry.find? "blob:a" = some (some 0) ∧
      (twoSources.after brokenPromises).registry.find? "blob:b" = some none ∧
      (twoSources.after brokenPromises).registry.size = 2 ∧
      (twoSources.perform (.register "blob:a" (some 1))).2.registry.find? "blob:b" =
        some (some 1) ∧
      (twoSources.perform (.unregister "blob:c")).2 = twoSources := by
  have h := violations_spare_other_urls twoSources
  have hall : ∀ entry ∈ twoSources.transcript brokenPromises,
      ∃ v, entry.2 = .error (.registry v) := by
    have hentries : (twoSources.transcript brokenPromises).map Prod.snd =
        [.error (.registry (.registeredTwice "blob:a")),
          .error (.registry (.notRegistered "blob:c")),
          .error (.registry (.registeredTwice "blob:b")),
          .error (.registry (.registeredTwice "blob:a")),
          .error (.registry (.registeredTwice "blob:a"))] := by
      decide
    intro entry hentry
    have hmem : entry.2 ∈ (twoSources.transcript brokenPromises).map Prod.snd :=
      List.mem_map_of_mem hentry
    simp only [hentries, List.mem_cons, List.not_mem_nil, or_false] at hmem
    rcases hmem with hv | hv | hv | hv | hv
    all_goals exact ⟨_, hv⟩
  obtain ⟨hfound, -, hsize⟩ := h.2.2 brokenPromises hall
  refine ⟨hall, (hfound _).trans ?_, (hfound _).trans ?_, hsize.trans ?_, ?_, ?_⟩
  · decide
  · decide
  · decide
  · rw [(h.1 "blob:a" (some 1) (by decide)).2.2.2 "blob:b" (by decide)]
    decide
  · rw [h.2.1 "blob:c" (by decide)]

/-- The report of a url that is registered twice comes too late for the first source: it lives, and it
is not found any more. -/
theorem second_registration_replaces_first :
    twoSources.registry.contains "blob:a" = true ∧
      twoSources.lookup "blob:a" = some 0 ∧
      (twoSources.perform (.register "blob:a" (some 1))).1 =
        .error (.registry (.registeredTwice "blob:a")) ∧
      (twoSources.perform (.register "blob:a" (some 1))).2.lookup "blob:a" = some 1 ∧
      ¬∀ (s : Session BasicPipeline) (url : String) (target : Option ℕ),
        s.registry.contains url = true →
          (s.perform (.register url target)).2.lookup url = s.lookup url := by
  have hcontains : twoSources.registry.contains "blob:a" = true := by decide
  have hfirst : twoSources.lookup "blob:a" = some 0 := by decide
  have hsecond : (twoSources.perform (.register "blob:a" (some 1))).2.lookup "blob:a" = some 1 := by
    decide
  refine ⟨hcontains, hfirst, by decide, hsecond, fun h => ?_⟩
  have hsame := h twoSources "blob:a" (some 1) hcontains
  rw [hfirst, hsecond] at hsame
  cases hsame

end Session

end ProtectedMedia
