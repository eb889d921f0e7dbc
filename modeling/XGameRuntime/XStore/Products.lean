import XGameRuntime.Bytes.Text
import XGameRuntime.HandleTable.Counted
import XGameRuntime.Results

/-! # Product queries

`src/com/xstore.rs`: what the service lists is kept as C strings with products that point into them,
until the handle to the query is closed and nobody enumerates it any more.
-/

namespace XGameRuntime.XStore
open Bytes
set_option autoImplicit false

/-! ## What the service lists -/

structure EntitledProduct where
  storeId : String
  title : String
  productKind : String
  deriving DecidableEq, Repr

/-- An amount is an `f32`. -/
structure CatalogProductEntry (F : Type) where
  storeId : String
  title : String
  productKind : String
  currencyCode : String
  basePrice : F
  price : F
  recurrencePrice : F
  saleEndDate : ℤ
  deriving DecidableEq, Repr

/-- What the runtime does with an `f32`. -/
structure Amounts (F : Type) where
  zero : F
  lt : F → F → Bool
  /-- `format!("{amount:.2}")`. -/
  render : F → List UInt8

/-! ## What a title sees -/

/-- `P` is a pointer. -/
structure XStorePrice (P F : Type) where
  basePrice : F
  price : F
  recurrencePrice : F
  currencyCode : P
  formattedBasePrice : List UInt8
  formattedPrice : List UInt8
  formattedRecurrencePrice : List UInt8
  isOnSale : Bool
  saleEndDate : ℤ
  deriving DecidableEq, Repr

structure XStoreProduct (P F : Type) where
  storeId : P
  title : P
  description : P
  language : P
  inAppOfferToken : P
  linkUri : P
  productKind : ℕ
  price : XStorePrice P F
  hasDigitalDownload : Bool
  isInUserCollection : Bool
  keywordsCount : ℕ
  keywords : P
  skusCount : ℕ
  skus : P
  imagesCount : ℕ
  images : P
  videosCount : ℕ
  videos : P
  deriving DecidableEq, Repr

def XSTORE_PRODUCT_KIND_NONE : ℕ := 0x00
def XSTORE_PRODUCT_KIND_CONSUMABLE : ℕ := 0x01
def XSTORE_PRODUCT_KIND_DURABLE : ℕ := 0x02
def XSTORE_PRODUCT_KIND_GAME : ℕ := 0x04
def XSTORE_PRODUCT_KIND_PASS : ℕ := 0x08
def XSTORE_PRODUCT_KIND_UNMANAGED_CONSUMABLE : ℕ := 0x10

def eqIgnoreAsciiCase (a b : String) : Bool :=
  decide (a.toList.map Char.toLower = b.toList.map Char.toLower)

def KINDS : List (String × ℕ) :=
  [("Consumable", XSTORE_PRODUCT_KIND_CONSUMABLE),
    ("Durable", XSTORE_PRODUCT_KIND_DURABLE),
    ("Game", XSTORE_PRODUCT_KIND_GAME),
    ("Pass", XSTORE_PRODUCT_KIND_PASS),
    ("UnmanagedConsumable", XSTORE_PRODUCT_KIND_UNMANAGED_CONSUMABLE)]

def productKindFlag (kind : String) : ℕ :=
  ((KINDS.find? fun entry => eqIgnoreAsciiCase kind entry.1).map Prod.snd).getD
    XSTORE_PRODUCT_KIND_NONE

section Rows
variable {P F : Type} (A : Amounts F)

/-- The first 15 bytes of the text; what is left of the 16 stays zero. -/
def formatPrice (amount : F) (currencyCode : String) : List UInt8 :=
  let text :=
    if currencyCode = "" then []
    else if currencyCode = "USD" then 36 :: A.render amount
    else A.render amount ++ 32 :: utf8Bytes currencyCode
  text.take 15 ++ List.replicate (16 - (text.take 15).length) 0

/-- The field is full, and its last byte is the terminator, whatever the amount and the currency. -/
theorem formatPrice_terminated (amount : F) (currencyCode : String) :
    (formatPrice A amount currencyCode).length = 16 ∧
      (formatPrice A amount currencyCode)[15]? = some 0 := by
  unfold formatPrice
  dsimp only
  generalize (if currencyCode = "" then [] else if currencyCode = "USD" then 36 :: A.render amount
    else A.render amount ++ 32 :: utf8Bytes currencyCode) = text
  have hlen := List.length_take_le 15 text
  refine ⟨?_, ?_⟩
  · rw [List.length_append, List.length_replicate]
    omega
  · rw [List.getElem?_append_right hlen, List.getElem?_replicate, if_pos (by omega)]

def storePrice (entry : CatalogProductEntry F) (currencyCode : P) : XStorePrice P F where
  basePrice := entry.basePrice
  price := entry.price
  recurrencePrice := entry.recurrencePrice
  currencyCode := currencyCode
  formattedBasePrice := formatPrice A entry.basePrice entry.currencyCode
  formattedPrice := formatPrice A entry.price entry.currencyCode
  formattedRecurrencePrice := formatPrice A entry.recurrencePrice entry.currencyCode
  isOnSale := A.lt entry.price entry.basePrice
  saleEndDate := entry.saleEndDate

/-- `XStorePrice::default()` but for the currency. -/
def defaultPrice (currencyCode : P) : XStorePrice P F where
  basePrice := A.zero
  price := A.zero
  recurrencePrice := A.zero
  currencyCode := currencyCode
  formattedBasePrice := List.replicate 16 0
  formattedPrice := List.replicate 16 0
  formattedRecurrencePrice := List.replicate 16 0
  isOnSale := false
  saleEndDate := 0

def xStoreProduct (null storeId title : P) (productKind : String) (price : XStorePrice P F)
    (isInUserCollection : Bool) : XStoreProduct P F where
  storeId := storeId
  title := title
  description := null
  language := null
  inAppOfferToken := null
  linkUri := null
  productKind := productKindFlag productKind
  price := price
  hasDigitalDownload := true
  isInUserCollection := isInUserCollection
  keywordsCount := 0
  keywords := null
  skusCount := 0
  skus := null
  imagesCount := 0
  images := null
  videosCount := 0
  videos := null

/-- `CString::new(..).unwrap_or_default()`: a string with a zero in it becomes the empty one. -/
def cString (s : String) : String := if '\x00' ∈ s.toList then "" else s

/-! ## C strings -/

/-- The C strings by address, `none` once freed. -/
abbrev Strings := List (Option String)

/-- What comes of reading a string. -/
inductive Reading where
  | null
  | freed
  | text (s : String)
  deriving DecidableEq, Repr

def Strings.read (strings : Strings) : Option ℕ → Reading
  | none => .null
  | some a => ((strings[a]?.bind id).map .text).getD .freed

def Strings.free (strings : Strings) (addresses : List ℕ) : Strings :=
  addresses.foldl (fun strings a => strings.set a none) strings

/-- The strings that an entry owns, and the product that points into them. -/
structure ProductQueryEntry (F : Type) where
  storeId : ℕ
  title : ℕ
  currencyCode : ℕ
  product : XStoreProduct (Option ℕ) F
  deriving DecidableEq, Repr

structure ProductQuery (F : Type) where
  entries : List (ProductQueryEntry F) := []
  deriving DecidableEq, Repr

def ProductQueryEntry.owned (e : ProductQueryEntry F) : List ℕ := [e.storeId, e.title, e.currencyCode]

def ProductQuery.owned (query : ProductQuery F) : List ℕ :=
  query.entries.flatMap ProductQueryEntry.owned

/-- One product of `query_entitled_products`. -/
def entitledEntry (strings : Strings) (product : EntitledProduct) :
    ProductQueryEntry F × Strings :=
  let storeId := strings.length
  let title := strings.length + 1
  let currencyCode := strings.length + 2
  ({ storeId := storeId
     title := title
     currencyCode := currencyCode
     product := xStoreProduct none (some storeId) (some title) product.productKind
       (defaultPrice A (some currencyCode)) true },
    strings ++ [some (cString product.storeId), some (cString product.title), some ""])

/-- One product of `build_product_query`. -/
def catalogEntry (strings : Strings) (product : CatalogProductEntry F) :
    ProductQueryEntry F × Strings :=
  let currencyCode := strings.length
  let storeId := strings.length + 1
  let title := strings.length + 2
  ({ storeId := storeId
     title := title
     currencyCode := currencyCode
     product := xStoreProduct none (some storeId) (some title) product.productKind
       (storePrice A product (some currencyCode)) false },
    strings ++
      [some (cString product.currencyCode), some (cString product.storeId),
        some (cString product.title)])

/-- The entries of a query, one after the other. -/
def buildEntries {R : Type} (entry : Strings → R → ProductQueryEntry F × Strings) :
    Strings → List R → List (ProductQueryEntry F) × Strings
  | strings, [] => ([], strings)
  | strings, product :: products =>
      let first := entry strings product
      let rest := buildEntries entry first.2 products
      (first.1 :: rest.1, rest.2)

/-! ## The handle table -/

/-- `PRODUCT_QUERY_HANDLES` and the strings of its queries. -/
structure ProductQueryHandleTable (F : Type) where
  queries : Counted (ProductQuery F) := {}
  strings : Strings := []

namespace ProductQueryHandleTable
variable (t : ProductQueryHandleTable F)

def create {R : Type} (entry : Strings → R → ProductQueryEntry F × Strings) (products : List R) :
    ℕ × ProductQueryHandleTable F :=
  let built := buildEntries entry t.strings products
  let created := t.queries.create { entries := built.1 }
  (created.1, { queries := created.2, strings := built.2 })

def get (handle : ℕ) : Option (ℕ × ProductQueryHandleTable F) :=
  (t.queries.get handle).map fun r => (r.1, { t with queries := r.2 })

/-- An `Arc<ProductQuery>` goes out of scope; the last one frees the strings. -/
def drop (query : ℕ) : ProductQueryHandleTable F :=
  let queries := t.queries.release query
  if queries.strong query = 0 then
    { queries := queries
      strings := t.strings.free ((queries.values[query]?.map ProductQuery.owned).getD []) }
  else { t with queries := queries }

def close (handle : ℕ) : ProductQueryHandleTable F :=
  match t.queries.remove handle with
  | none => t
  | some r => drop { t with queries := r.2 } r.1

def entry (query i : ℕ) : Option (ProductQueryEntry F) :=
  t.queries.values[query]?.bind fun query => query.entries[i]?

end ProductQueryHandleTable

/-! ## What a product is to a title -/

/-- A product with its strings read. -/
def XStoreProduct.map {Q : Type} (f : P → Q) (p : XStoreProduct P F) : XStoreProduct Q F where
  storeId := f p.storeId
  title := f p.title
  description := f p.description
  language := f p.language
  inAppOfferToken := f p.inAppOfferToken
  linkUri := f p.linkUri
  productKind := p.productKind
  price := { p.price with currencyCode := f p.price.currencyCode }
  hasDigitalDownload := p.hasDigitalDownload
  isInUserCollection := p.isInUserCollection
  keywordsCount := p.keywordsCount
  keywords := f p.keywords
  skusCount := p.skusCount
  skus := f p.skus
  imagesCount := p.imagesCount
  images := f p.images
  videosCount := p.videosCount
  videos := f p.videos

/-- A product as a title is to see it. -/
abbrev Listing (F : Type) := XStoreProduct Reading F

def EntitledProduct.listing (product : EntitledProduct) : Listing F :=
  xStoreProduct .null (.text (cString product.storeId)) (.text (cString product.title))
    product.productKind (defaultPrice A (.text "")) true

def CatalogProductEntry.listing (product : CatalogProductEntry F) : Listing F :=
  xStoreProduct .null (.text (cString product.storeId)) (.text (cString product.title))
    product.productKind (storePrice A product (.text (cString product.currencyCode))) false

end Rows

end XGameRuntime.XStore
