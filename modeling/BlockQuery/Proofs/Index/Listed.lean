import BlockQuery.Proofs.Index.LongNames

/-!
# Indexes of any entries

A built index that opens lists the entries it was built of, whatever order its
keys are in.  So a scan finds offsets of these entries only.
-/

namespace BlockQuery.Index

namespace Writer

variable {w : Writer} {entries : List (Row × ℕ)} {path : String} {r : Reader}

namespace Holds

/-- A reader of what a writer has written lists its entries, in whatever order they are. -/
theorem lists_of_ofContent (h : w.Holds entries) (hfits : w.Fits) (hschema : w.schema ≠ [])
    (hspecs : w.specs ≠ []) (horder : RowOrder.ofSpecs w.schema w.specs = .ok w.order)
    (hstorable : ∀ e ∈ entries, Storable e) (hopen : Reader.ofContent path w.content = .ok r) :
    r.Lists entries := by
  have hsections := hfits.sections
  have hlength := length_content_lt hfits.toSized (length_body_lt (h.fits_header hfits))
  have hbottom : w.bottomSection.length < 2 ^ 64 := by omega
  rw [h.ofContent_eq (h.fits_header hfits) (h.count_lt hfits.toSized) hlength hschema hspecs
    horder] at hopen
  obtain ⟨found, htop, rfl⟩ := Except.map_eq_ok.mp hopen
  obtain ⟨rfl, -⟩ := (h.readTop_topSection_iff hbottom (h.storable_key_top hstorable) _ _).mp htop
  exact h.lists_reader hstorable path

end Holds

end Writer

/-- An index of one column lists its entries if it opens. -/
theorem Filled.lists_of_open? {disk made sealed : Disk} {path : String} {c : Column}
    {specs : List SortSpec} {loadFactor : ℕ} {entries : List (Row × ℕ)} {summary : Summary}
    {w : Writer} {r : Reader} (h : Filled disk path [c] specs loadFactor entries w made)
    (hfactor : loadFactor < 2 ^ 32) (hcount : specs.length ≤ 65535)
    (hstorable : ∀ e ∈ entries, Storable e)
    (hsize : (entries.flatMap encodeEntry).length ≤ 2 ^ 62)
    (hclose : w.close made = .ok (summary, sealed)) (hopen : Reader.open? sealed path = .ok r) :
    r.Lists entries := by
  have hsized := h.sized hfactor hsize
  have hname := h.name_le_of_open? hsized hclose hopen
  have hfits := h.fits hsized (show [c].length ≤ 65535 from (by decide : 1 ≤ 65535)) hcount
    (List.forall_mem_singleton.mpr hname)
  rw [h.open?_close hclose] at hopen
  exact h.holds.lists_of_ofContent hfits h.schema_ne h.specs_ne h.order hstorable hopen

/-! ## Scans -/

section Scans

variable {r : Reader} {entries : List (Row × ℕ)} {lower upper : Bound} {s : Scan}

theorem standsAt_of_scan (hscan : r.scan lower upper = .ok s) : StandsAt r s := by
  obtain ⟨_, -, hscan⟩ := Except.bind_eq_ok.mp hscan
  obtain ⟨_, -, hscan⟩ := Except.bind_eq_ok.mp hscan
  obtain ⟨start, -, hscan⟩ := Except.bind_eq_ok.mp hscan
  cases hscan
  exact ⟨rfl, rfl, fun _ _ hblock => by cases hblock⟩

/-- A scan finds offsets of listed entries only. -/
theorem exists_entry_of_scan (h : r.Lists entries) {offsets : List ℕ}
    (hscan : (r.scan lower upper).bind Scan.offsets = .ok offsets) :
    ∀ offset ∈ offsets, ∃ e ∈ entries, e.2 = offset := by
  obtain ⟨s, hs, hoffsets⟩ := Except.bind_eq_ok.mp hscan
  rw [Scan.offsets, drain_eq h (standsAt_of_scan hs), List.reverse_nil, List.nil_append,
    mapM_id_ok] at hoffsets
  cases hoffsets
  intro offset hoffset
  obtain ⟨e, he, rfl⟩ := List.mem_map.mp hoffset
  exact ⟨e, List.mem_of_mem_drop ((List.takeWhile_sublist _).subset he), rfl⟩

end Scans

end BlockQuery.Index
