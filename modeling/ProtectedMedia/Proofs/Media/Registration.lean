import Mathlib.Data.List.Nodup
import ProtectedMedia.Proofs.Media.Requests

/-!
# The registry and the sources that live

A source is registered when it is created and unregistered when it is dropped. As long as nobody
else registers or unregisters anything, the registry has an entry for each living source, under the
url of that source, and no other entry. It does not matter what the sources went through, in which
order they come and go, or how often a random url was taken already.
-/
namespace ProtectedMedia

namespace Registry
variable {r : Registry} {url : String} {target : Option ℕ} {entry : String × Option ℕ}

theorem nodup_keys (r : Registry) : (r.entries.map Prod.fst).Nodup :=
  List.pairwise_map.mpr r.distinct

theorem eq_of_mem {first second : Option ℕ} (hfirst : (url, first) ∈ r.entries)
    (hsecond : (url, second) ∈ r.entries) : first = second :=
  congrArg Prod.snd (List.inj_on_of_nodup_map r.nodup_keys hfirst hsecond rfl)

theorem find?_eq_some : r.find? url = some target ↔ (url, target) ∈ r.entries := by
  unfold find?
  constructor
  · intro h
    obtain ⟨⟨other, target'⟩, hfound, rfl⟩ := Option.map_eq_some_iff.mp h
    have hurl : other = url := by simpa using List.find?_some hfound
    rw [← hurl]
    exact List.mem_of_find?_eq_some hfound
  · intro hmem
    have hsome : (r.entries.find? fun e => e.1 = url).isSome := by
      rw [List.find?_isSome]
      exact ⟨_, hmem, by simp⟩
    obtain ⟨⟨other, target'⟩, hfound⟩ := Option.isSome_iff_exists.mp hsome
    have hurl : other = url := by simpa using List.find?_some hfound
    subst hurl
    rw [hfound, eq_of_mem hmem (List.mem_of_find?_eq_some hfound)]
    rfl

theorem contains_iff : r.contains url = true ↔ ∃ target, (url, target) ∈ r.entries := by
  simp only [contains, Option.isSome_iff_exists, find?_eq_some]

@[simp] theorem mem_erase : entry ∈ (r.erase url).entries ↔ entry ∈ r.entries ∧ entry.1 ≠ url := by
  simp [erase]

@[simp] theorem mem_insert : entry ∈ (r.insert url target).entries ↔
    entry = (url, target) ∨ entry ∈ r.entries ∧ entry.1 ≠ url := by
  simp [insert]

end Registry

theorem MediaSource.Performs.url_eq {κ : Type} [PipelineController κ] {s s' : MediaSource κ}
    {c : Command} {r : Except Failure Answer} (hstep : Performs s c r s') : s'.url = s.url := by
  cases hstep <;> rfl

namespace Session

/-- The request leaves it to the sources to register and to unregister themselves. -/
def Request.isOrderly {κ : Type} : Request κ → Bool
  | .register _ _ | .unregister _ => false
  | _ => true

section
variable {κ : Type} {s : Session κ} {n : ℕ} {url : String}

/-- The url of a source that lives. -/
def url? (s : Session κ) (n : ℕ) : Option String := (s.source? n).map (·.url)

/-- The urls of the sources that live. -/
def urls (s : Session κ) : List String :=
  s.sources.filterMap fun slot => if slot.alive then some slot.source.url else none

/-- The registry has an entry for each source that lives, and no other entry. -/
def Coherent (s : Session κ) : Prop :=
  ∀ url target, (url, target) ∈ s.registry.entries ↔ ∃ n, target = some n ∧ s.url? n = some url

theorem url?_of_slot (s : Session κ) (n : ℕ) :
    s.url? n = s.sources[n]?.bind fun slot => if slot.alive then some slot.source.url else none := by
  unfold url? source?
  cases s.sources[n]? with
  | none => rfl
  | some slot => cases halive : slot.alive <;> simp [halive]

theorem url?_length (s : Session κ) : s.url? s.sources.length = none := by
  simp [url?_of_slot]

theorem url?_eq_some : s.url? n = some url ↔ ∃ source, s.source? n = some source ∧ source.url = url :=
  Option.map_eq_some_iff

theorem mem_urls : url ∈ s.urls ↔ ∃ n, s.url? n = some url := by
  simp only [urls, List.mem_filterMap, url?_of_slot, Option.bind_eq_some_iff]
  constructor
  · rintro ⟨slot, hslot, hurl⟩
    obtain ⟨n, hn⟩ := List.mem_iff_getElem?.mp hslot
    exact ⟨n, slot, hn, hurl⟩
  · rintro ⟨n, slot, hn, hurl⟩
    exact ⟨slot, List.mem_iff_getElem?.mpr ⟨n, hn⟩, hurl⟩

theorem contains_of_freshUrl? {candidates : List String} (h : s.freshUrl? candidates = some url) :
    s.registry.contains url = false := by
  simpa using List.find?_some h

/-! ### What can be told from the registry -/

theorem Coherent.mem_iff (h : s.Coherent) :
    (url, some n) ∈ s.registry.entries ↔ s.url? n = some url := by
  rw [h]
  constructor
  · rintro ⟨m, hm, hurl⟩
    cases hm
    exact hurl
  · exact fun hurl => ⟨n, rfl, hurl⟩

/-- Two sources that live have different urls. -/
theorem Coherent.eq_of_url? (h : s.Coherent) {m : ℕ} (hm : s.url? m = some url)
    (hn : s.url? n = some url) : m = n :=
  Option.some.inj (Registry.eq_of_mem (h.mem_iff.mpr hm) (h.mem_iff.mpr hn))

theorem Coherent.contains_iff (h : s.Coherent) :
    s.registry.contains url = true ↔ ∃ n, s.url? n = some url := by
  rw [Registry.contains_iff]
  constructor
  · rintro ⟨target, hmem⟩
    obtain ⟨n, -, hurl⟩ := (h url target).mp hmem
    exact ⟨n, hurl⟩
  · rintro ⟨n, hurl⟩
    exact ⟨some n, h.mem_iff.mpr hurl⟩

theorem Coherent.lookup_eq_some (h : s.Coherent) : s.lookup url = some n ↔ s.url? n = some url := by
  unfold lookup
  cases hfound : s.registry.find? url with
  | none =>
      have hmem : (url, some n) ∉ s.registry.entries := by
        rw [← Registry.find?_eq_some, hfound]
        exact nofun
      rw [h.mem_iff] at hmem
      simp [hmem]
  | some target =>
      obtain ⟨m, rfl, hm⟩ := (h url target).mp (Registry.find?_eq_some.mp hfound)
      have hlive : (s.source? m).isSome = true := by
        obtain ⟨source, hsource, -⟩ := url?_eq_some.mp hm
        rw [hsource]
        rfl
      simp only [hlive, if_true, Option.some.injEq]
      constructor
      · rintro rfl
        exact hm
      · exact h.eq_of_url? hm

theorem Coherent.nodup_urls (h : s.Coherent) : s.urls.Nodup := by
  rw [urls, List.Nodup, List.pairwise_filterMap, List.pairwise_iff_getElem]
  intro i j hi hj hij url hurl url' hurl' heq
  subst heq
  have hi' : s.url? i = some url := by simpa [url?_of_slot, hi] using hurl
  have hj' : s.url? j = some url := by simpa [url?_of_slot, hj] using hurl'
  exact absurd (h.eq_of_url? hi' hj') (Nat.ne_of_lt hij)

theorem Coherent.perm_urls (h : s.Coherent) : (s.registry.entries.map Prod.fst).Perm s.urls := by
  refine (List.perm_ext_iff_of_nodup s.registry.nodup_keys h.nodup_urls).mpr fun url => ?_
  rw [mem_urls, ← h.contains_iff, Registry.contains_iff]
  simp

theorem length_urls (s : Session κ) : s.urls.length = s.sources.countP (·.alive) := by
  rw [urls, List.length_filterMap_eq_countP]
  congr
  funext slot
  cases slot.alive <;> rfl

end

/-! ### What requests do to it -/

variable {κ : Type} [PipelineController κ] {s : Session κ} {r : Request κ}

/-- A source has its url from its creation until it is dropped. -/
theorem url?_perform (s : Session κ) (r : Request κ) (n : ℕ) :
    (s.perform r).2.url? n = match r with
      | .createSource _ urls => if n = s.sources.length then s.freshUrl? urls else s.url? n
      | .dropSource m => if m = n then none else s.url? n
      | _ => s.url? n := by
  rw [url?_of_slot, slot_perform, url?_of_slot]
  cases r with
  | createSource controller urls =>
      simp only
      by_cases hn : n = s.sources.length
      · cases s.freshUrl? urls <;> simp [hn, MediaSource.create]
      · simp [hn]
  | dropSource m =>
      cases s.sources[n]? with
      | none => simp
      | some slot => by_cases hm : m = n <;> simp [hm]
  | command m c =>
      cases s.sources[n]? with
      | none => rfl
      | some slot =>
          have hurl := (MediaSource.performs_perform slot.source c).url_eq
          by_cases hm : m = n <;> cases halive : slot.alive <;> simp [hm, halive, hurl]
  | setUpdating b updating =>
      cases s.sources[n]? with
      | none => rfl
      | some slot =>
          simp only
          cases s.buffers[b]? with
          | none => rfl
          | some buffer => by_cases hm : buffer.1 = n <;> simp [hm, MediaSource.setUpdating]
  | _ => rfl

omit [PipelineController κ] in
theorem coherent_empty : (empty : Session κ).Coherent := by
  intro url target
  simp [empty, Registry.empty, url?_of_slot]

theorem Coherent.created (h : s.Coherent) (controller : κ) (urls : List String) :
    (s.perform (.createSource controller urls)).2.Coherent := by
  intro url target
  simp only [registry_perform, url?_perform]
  cases hurl : s.freshUrl? urls with
  | none =>
      rw [Option.elim_none, h]
      refine exists_congr fun n => and_congr_right fun _ => ?_
      split
      · rename_i hn
        rw [hn, url?_length]
      · rfl
  | some free =>
      have hfree : ∀ n, s.url? n ≠ some free := fun n hn => by
        have hcontains := h.contains_iff.mpr ⟨n, hn⟩
        rw [contains_of_freshUrl? hurl] at hcontains
        cases hcontains
      rw [Option.elim_some, Registry.mem_insert, h, Prod.mk.injEq]
      constructor
      · rintro (⟨rfl, rfl⟩ | ⟨⟨n, rfl, hn⟩, -⟩)
        · exact ⟨s.sources.length, rfl, if_pos rfl⟩
        · have hne : n ≠ s.sources.length := by
            rintro rfl
            simp [url?_length] at hn
          exact ⟨n, rfl, by rwa [if_neg hne]⟩
      · rintro ⟨n, rfl, hn⟩
        split at hn
        · rename_i hlength
          cases hn
          exact .inl ⟨rfl, by rw [hlength]⟩
        · refine .inr ⟨⟨n, rfl, hn⟩, ?_⟩
          rintro rfl
          exact hfree n hn

theorem Coherent.dropped (h : s.Coherent) (m : ℕ) :
    (s.perform (.dropSource m)).2.Coherent := by
  intro url target
  simp only [registry_perform, url?_perform]
  cases hsource : s.source? m with
  | none =>
      have hnone : s.url? m = none := by rw [url?, hsource]; rfl
      rw [Option.elim_none, h]
      refine exists_congr fun n => and_congr_right fun _ => ?_
      split
      · rename_i hm
        rw [← hm, hnone]
      · rfl
  | some source =>
      have hsome := url?_eq_some.mpr ⟨source, hsource, rfl⟩
      rw [Option.elim_some, Registry.mem_erase, h]
      constructor
      · rintro ⟨⟨n, rfl, hn⟩, hne⟩
        refine ⟨n, rfl, ?_⟩
        rw [if_neg]
        · exact hn
        · rintro rfl
          rw [hsome] at hn
          exact hne (Option.some.inj hn).symm
      · rintro ⟨n, rfl, hn⟩
        split at hn
        · cases hn
        · rename_i hne
          refine ⟨⟨n, rfl, hn⟩, ?_⟩
          rintro rfl
          exact hne (h.eq_of_url? hsome hn)

theorem Coherent.perform (h : s.Coherent) (horderly : r.isOrderly = true) :
    (s.perform r).2.Coherent := by
  cases r with
  | createSource controller urls => exact h.created controller urls
  | dropSource m => exact h.dropped m
  | register | unregister => cases horderly
  | _ =>
      intro url target
      simp only [registry_perform, url?_perform]
      exact h url target

theorem Coherent.after (h : s.Coherent) (requests : List (Request κ))
    (horderly : ∀ r ∈ requests, r.isOrderly = true) : (s.after requests).Coherent := by
  induction requests generalizing s with
  | nil => exact h
  | cons r requests ih =>
      rw [List.forall_mem_cons] at horderly
      exact ih (h.perform horderly.1) horderly.2

omit [PipelineController κ] in
/-- A source that lives is registered, so that it can be dropped. -/
theorem Coherent.dropSource_eq (h : s.Coherent) (m : ℕ) :
    (s.dropSource m).1 = if m < s.sources.length then .ok .nothing else .error .unavailable := by
  rw [dropSource_fst]
  cases hsource : s.source? m with
  | none => rfl
  | some source =>
      have hsome := url?_eq_some.mpr ⟨source, hsource, rfl⟩
      rw [Option.elim_some, if_pos (h.contains_iff.mpr ⟨m, hsome⟩)]

/-- Sources that come and go break no promise to the registry. -/
theorem Coherent.answer (h : s.Coherent) (horderly : r.isOrderly = true)
    (v : Registry.Violation) : (s.perform r).1 ≠ .error (.registry v) := by
  intro hv
  cases breaks_of_perform hv with
  | register | unregister => cases horderly
  | @dropSource m source hsource hurl =>
      have hsome := url?_eq_some.mpr ⟨source, hsource, rfl⟩
      rw [h.contains_iff.mpr ⟨m, hsome⟩] at hurl
      cases hurl

theorem Coherent.answers (h : s.Coherent) (requests : List (Request κ))
    (horderly : ∀ r ∈ requests, r.isOrderly = true) (v : Registry.Violation) :
    ∀ entry ∈ s.transcript requests, entry.2 ≠ .error (.registry v) := by
  induction requests generalizing s with
  | nil => simp [transcript]
  | cons r requests ih =>
      rw [List.forall_mem_cons] at horderly
      rw [transcript, List.forall_mem_cons]
      exact ⟨h.answer horderly.1 v, ih (h.perform horderly.1) horderly.2⟩

omit [PipelineController κ] in
/-- Trying one url after another finds one that is not registered, if there is one. -/
theorem createSource_of_fresh (s : Session κ) (controller : κ) {candidates : List String}
    (hfresh : ∃ url ∈ candidates, s.registry.contains url = false) :
    ∃ url ∈ candidates, s.registry.contains url = false ∧
      (s.createSource controller candidates).1 = .ok (.number s.sources.length) ∧
      (s.createSource controller candidates).2.source? s.sources.length =
        some (.create url controller) := by
  have hsome : (s.freshUrl? candidates).isSome = true := by
    rw [freshUrl?, List.find?_isSome]
    simpa using hfresh
  obtain ⟨url, hurl⟩ := Option.isSome_iff_exists.mp hsome
  refine ⟨url, List.mem_of_find?_eq_some hurl, contains_of_freshUrl? hurl, ?_⟩
  rw [createSource_eq hurl, source?_eq_some]
  exact ⟨rfl, List.getElem?_concat_length⟩

/-- However sources are created, used and dropped, as long as nobody else registers or unregisters
anything: the keys of the registry are the urls of the sources that live, no two of which have the
same, a lookup finds a source if and only if it lives and has that url, there are as many entries as
living sources, and no promise to the registry is broken. A source can be created whenever one of the
urls that are tried is not registered. -/
theorem registry_tells_living (requests : List (Request κ))
    (horderly : ∀ r ∈ requests, r.isOrderly = true) :
    ((empty.after requests).registry.entries.map Prod.fst).Perm (empty.after requests).urls ∧
      (empty.after requests).urls.Nodup ∧
      (∀ url n, (empty.after requests).lookup url = some n ↔
        ∃ source, (empty.after requests).source? n = some source ∧ source.url = url) ∧
      (empty.after requests).registry.size = (empty.after requests).sources.countP (·.alive) ∧
      (∀ entry ∈ (empty : Session κ).transcript requests, ∀ v, entry.2 ≠ .error (.registry v)) ∧
      ∀ controller candidates,
        (∃ url ∈ candidates, (empty.after requests).registry.contains url = false) →
          ∃ url ∈ candidates, (empty.after requests).registry.contains url = false ∧
            ((empty.after requests).createSource controller candidates).1 =
              .ok (.number (empty.after requests).sources.length) ∧
            ((empty.after requests).createSource controller candidates).2.source?
              (empty.after requests).sources.length = some (.create url controller) := by
  have h := coherent_empty.after requests horderly
  have hsize : (empty.after requests).registry.size =
      (empty.after requests).sources.countP (·.alive) := by
    rw [← length_urls, ← h.perm_urls.length_eq, List.length_map]
    rfl
  refine ⟨h.perm_urls, h.nodup_urls, fun url n => ?_, hsize, ?_, fun controller _ hfresh => ?_⟩
  · rw [h.lookup_eq_some, url?_eq_some]
  · exact fun entry hentry v => coherent_empty.answers requests horderly v entry hentry
  · exact createSource_of_fresh _ controller hfresh

/-- The first source is dropped while it is attached; the second one was offered its url in vain, and
the third one gets it. -/
def reusedUrl : List (Request BasicPipeline) :=
  [.createSource .initial ["blob:a"], .createSource .initial ["blob:a", "blob:b"], .createElement,
    .command 0 (.attach 0), .command 0 (.attach 0), .command 1 .detach, .dropSource 0,
    .createSource .initial ["blob:b", "blob:b", "blob:a"]]

theorem registry_tells_living_reused :
    (∀ r ∈ reusedUrl, r.isOrderly = true) ∧
      ((empty.after reusedUrl).registry.entries.map Prod.fst).Perm (empty.after reusedUrl).urls ∧
      (empty.after reusedUrl).urls = ["blob:b", "blob:a"] ∧
      (empty.after reusedUrl).lookup "blob:a" = some 2 ∧
      (∃ source, (empty.after reusedUrl).source? 2 = some source ∧ source.url = "blob:a") ∧
      (.dropSource 0, .ok .nothing) ∈ empty.transcript reusedUrl ∧
      ((empty.after reusedUrl).createSource .initial ["blob:a", "blob:c"]).1 = .ok (.number 3) := by
  have horderly : ∀ r ∈ reusedUrl, r.isOrderly = true := by decide
  have h := registry_tells_living reusedUrl horderly
  have hlookup : (empty.after reusedUrl).lookup "blob:a" = some 2 := by decide
  obtain ⟨_, -, -, hcreated, -⟩ :=
    h.2.2.2.2.2 .initial ["blob:a", "blob:c"] ⟨"blob:c", by simp, by decide⟩
  have hdropped : (empty.transcript reusedUrl)[6]? = some (.dropSource 0, .ok .nothing) := rfl
  exact ⟨horderly, h.1, by decide, hlookup, (h.2.2.1 _ _).mp hlookup,
    List.mem_of_getElem? hdropped, hcreated⟩

end Session

end ProtectedMedia
