import ScriptFront.Proofs.Types.Records

/-! Types and their names. Main statement: a name stands for one type, unless it is the name of a named
type and of an array. -/
namespace ScriptFront

/-- What stands before the first `a` tells two lists apart. -/
theorem append_cons_inj {α : Type} {a : α} {xs ys xs' ys' : List α} (hxs : a ∉ xs) (hxs' : a ∉ xs')
    (h : xs ++ a :: ys = xs' ++ a :: ys') : xs = xs' ∧ ys = ys' := by
  induction xs generalizing xs' with
  | nil =>
    cases xs' with
    | nil => exact ⟨rfl, (List.cons.inj h).2⟩
    | cons x xs' => exact absurd ((List.cons.inj h).1 ▸ List.mem_cons_self) hxs'
  | cons x xs ih =>
    cases xs' with
    | nil => exact absurd ((List.cons.inj h).1 ▸ List.mem_cons_self) hxs
    | cons x' xs' =>
      obtain ⟨rfl, hrest⟩ := List.cons.inj h
      obtain ⟨rfl, rfl⟩ := ih (List.not_mem_of_not_mem_cons hxs) (List.not_mem_of_not_mem_cons hxs') hrest
      exact ⟨rfl, rfl⟩

namespace DataType

/-- Read from its end, the name of an array starts with its length. -/
theorem reverse_arrayName (element : String) (length : Nat) :
    (arrayName element length).toList.reverse =
      ']' :: ((Nat.toDigits 10 length).reverse ++ '[' :: element.toList.reverse) := by
  simp [arrayName, toString]

theorem arrayName_inj {element element' : String} {length length' : Nat}
    (h : arrayName element length = arrayName element' length') :
    element = element' ∧ length = length' := by
  have hdigits (n : Nat) : '[' ∉ (Nat.toDigits 10 n).reverse := by
    intro hmem
    have hdigit := Nat.isDigit_of_mem_toDigits (by decide) (by decide) (List.mem_reverse.mp hmem)
    exact absurd hdigit (by decide)
  have hlists := congrArg (fun s => s.toList.reverse) h
  simp only [reverse_arrayName, List.cons.injEq, true_and] at hlists
  obtain ⟨hlength, helement⟩ := append_cons_inj (hdigits length) (hdigits length') hlists
  constructor
  · exact String.toList_inj.mp (List.reverse_injective helement)
  · calc
      length = Nat.ofDigitChars 10 (Nat.toDigits 10 length) 0 := Nat.ofDigitChars_ten_toDigits.symm
      _ = Nat.ofDigitChars 10 (Nat.toDigits 10 length') 0 := by rw [List.reverse_injective hlength]
      _ = length' := Nat.ofDigitChars_ten_toDigits

theorem arrayName_ne_of_predefined {t : DataType} (ht : t ∈ predefined) (element : String)
    (length : Nat) : t.name ≠ arrayName element length := by
  have hall : ∀ t ∈ predefined, t.name.toList.reverse.head? ≠ some ']' := by decide
  intro heq
  apply hall t ht
  rw [heq, reverse_arrayName]
  rfl

end DataType

namespace Catalogue

variable {hash : NameHash} {c c' : Catalogue hash}

/-- No named type has the name of an array. -/
def NamesApart (c : Catalogue hash) : Prop :=
  ∀ t ∈ c.toList, ∀ u ∈ c.toList, ∀ indexing element length,
    t.shape = .custom indexing → u.shape = .array element length → t.name ≠ u.name

theorem NamesApart.of_nodup (h : (c.toList.map (·.name)).Nodup) : c.NamesApart := by
  intro t ht u hu indexing element length htshape hushape heq
  obtain rfl : t = u := List.inj_on_of_nodup_map h ht hu heq
  rw [htshape] at hushape
  cases hushape

theorem NamesApart.of_makes {call : TypeCall} {t : DataType} (hmakes : c.Makes call t c')
    (h : c'.NamesApart) : c.NamesApart := by
  have hsub {u : DataType} (hu : u ∈ c.toList) : u ∈ c'.toList := by
    rw [hmakes.toList]
    exact List.mem_append_left _ hu
  exact fun u hu v hv => h u (hsub hu) v (hsub hv)

/-- A new array has the name of no other type but a named one. -/
theorem Grown.isCustom_of_name_eq (h : c.Grown) (hnames : (c.toList.map (·.name)).Nodup)
    {element : TypeId} {length : Nat} {t u : DataType} (hfound : c.get? element = some t)
    (hnew : ∀ u ∈ c.toList, u.shape ≠ .array element length) (hu : u ∈ c.toList)
    (hname : u.name = DataType.arrayName t.name length) : ∃ indexing, u.shape = .custom indexing := by
  rcases List.mem_append.mp hu with hpredefined | hadded
  · exact absurd hname (DataType.arrayName_ne_of_predefined hpredefined _ _)
  · obtain ⟨hufound, -, -, horigin⟩ := h.of_mem_added hadded
    rcases DataType.shape_of_origin? horigin with hcustom | ⟨element', length', hshape⟩
    · exact hcustom
    · obtain ⟨t', hfound', hu'⟩ := h.eq_array hufound (DataType.origin?_eq_arrayOf_iff.mpr hshape)
      rw [hu'] at hname
      obtain ⟨hsame, rfl⟩ := DataType.arrayName_inj hname
      -- one name, one element
      obtain rfl : t' = t :=
        List.inj_on_of_nodup_map hnames (mem_toList_of_get? hfound') (mem_toList_of_get? hfound) hsame
      obtain rfl : element' = element := (h.id_eq hfound').symm.trans (h.id_eq hfound)
      exact absurd hshape (hnew u hu)

theorem Grown.nodup_names (h : c.Grown) (hapart : c.NamesApart) :
    (c.toList.map (·.name)).Nodup := by
  induction h with
  | start =>
    rw [toList_new]
    decide
  | @add c c' call t h hmakes ih =>
    have hnames := ih (hapart.of_makes hmakes)
    have hlist := hmakes.toList
    rw [hlist, List.map_append, List.map_singleton, ← List.concat_eq_append]
    refine hnames.concat fun hmem => ?_
    obtain ⟨u, hu, heq⟩ := List.mem_map.mp hmem
    have huin : u ∈ c'.toList := hlist ▸ List.mem_append_left _ hu
    have htin : t ∈ c'.toList := hlist ▸ List.mem_append_right _ List.mem_cons_self
    cases hmakes with
    | custom hnew => exact hnew u hu heq
    | array hfound hvoid hany hnew =>
      obtain ⟨indexing, hcustom⟩ := h.isCustom_of_name_eq hnames hfound hnew hu heq
      exact hapart u huin _ htin _ _ _ hcustom rfl heq

end Catalogue

namespace TypeTables

variable {hash : NameHash} {s : TypeTables hash}

theorem Valid.find?_name (h : s.Valid) (hapart : s.types.NamesApart) {t : DataType}
    (ht : t ∈ s.types.toList) : s.types.find? t.name = some t := by
  have hnames := h.grown.nodup_names hapart
  rw [← List.nodup_reverse, ← List.map_reverse] at hnames
  rw [h.find?_eq, find?_key_of_nodup hnames (List.mem_reverse.mpr ht)]

/-- A name stands for the latest type of that name. After any calls there is one type of each name
exactly if no named type has the name of an array. As long as that is so, a name stands for the type
that it stood for before. -/
theorem run_names (names : Interner hash)
    (hnames : ∀ t ∈ DataType.predefined, (Catalogue.enterNames names).Knows t.name)
    (calls : List TypeCall) :
    let s := ((new names).run calls).2
    (∀ name, s.types.find? name = s.types.toList.reverse.find? (·.name == name)) ∧
      ((s.types.toList.map (·.name)).Nodup ∧
        (∀ t ∈ s.types.toList, s.types.find? t.name = some t) ↔ s.types.NamesApart) ∧
      ∀ more, (s.run more).2.types.NamesApart →
        ∀ name t, s.types.find? name = some t → (s.run more).2.types.find? name = some t := by
  intro s
  have hvalid : s.Valid := (run_grows (new_valid hnames) calls).1
  refine ⟨hvalid.find?_eq, ⟨?_, ?_⟩, ?_⟩
  · rintro ⟨hnodup, -⟩
    exact .of_nodup hnodup
  · intro hapart
    exact ⟨hvalid.grown.nodup_names hapart, fun t => hvalid.find?_name hapart⟩
  · intro more hapart name t hfind
    rw [hvalid.find?_eq] at hfind
    have ht : t ∈ s.types.toList := List.mem_reverse.mp (List.mem_of_find?_eq_some hfind)
    obtain rfl : t.name = name := by simpa using List.find?_some hfind
    obtain ⟨hvalid', hgrows⟩ := run_grows hvalid more
    have hlists : s.types.toList <+: (s.run more).2.types.toList :=
      (List.prefix_append_right_inj _).mpr hgrows
    exact hvalid'.find?_name hapart (hlists.subset ht)

theorem run_names_nested :
    let calls : List TypeCall :=
      [.arrayOf .u8 4, .defineCustom "handle" .double none, .arrayOf ⟨64⟩ 2, .arrayOf ⟨65⟩ 2]
    let s := ((new (.new : Interner .standard)).run calls).2
    (s.types.added.map (·.name)) = ["u8[4]", "handle", "u8[4][2]", "handle[2]"] ∧
      s.types.NamesApart := by
  intro calls s
  have hnames : ∀ t ∈ DataType.predefined,
      (Catalogue.enterNames (.new : Interner .standard)).Knows t.name := by
    have hall : ∀ t ∈ DataType.predefined,
        ((Catalogue.enterNames (.new : Interner .standard)).get? (NameHash.standard t.name)).map
          (·.text) = some t.name := by decide +kernel
    exact fun t ht => Option.map_eq_some_iff.mp (hall t ht)
  obtain ⟨-, hiff, -⟩ := run_names .new hnames calls
  exact ⟨by decide +kernel, hiff.mp ⟨by decide +kernel, by decide +kernel⟩⟩

/-- The array takes the name away from the named type. -/
theorem run_names_clash :
    let calls : List TypeCall :=
      [.defineCustom "u8[4]" (.integer false .w8) none, .arrayOf .u8 4, .find "u8[4]"]
    let r := (new (.new : Interner .standard)).run calls
    r.1 = calls.zip [.made ⟨64⟩, .made ⟨65⟩,
        .type ⟨⟨65⟩, "u8[4]", .array .u8 4, 4, .integer false .w8⟩] ∧
      ¬ (r.2.types.toList.map (·.name)).Nodup ∧
      ∃ t ∈ r.2.types.toList, r.2.types.find? t.name ≠ some t := by
  decide +kernel

end TypeTables
end ScriptFront
