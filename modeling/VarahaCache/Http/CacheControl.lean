import VarahaCache.Text

/-!
# Cache-Control

`CacheControl::parse` of `rv-http`: comma-separated directives, each a name
with an optional `=value`, names without ASCII case.
-/

namespace VarahaCache

open Text

structure CacheControl where
  maxAge : Option ℚ := none
  sMaxage : Option ℚ := none
  noCache : Bool := false
  noStore : Bool := false
  mustRevalidate : Bool := false
  proxyRevalidate : Bool := false
  pub : Bool := false
  priv : Bool := false
  immutable : Bool := false
  staleWhileRevalidate : Option ℚ := none
  staleIfError : Option ℚ := none

namespace CacheControl

def directive (cc : CacheControl) (directive : String) : CacheControl :=
  let (key, value) := match splitOnce '=' directive with
    | some (k, v) => (trim k, some (trimBoth (· = '"') (trim v)))
    | none => (directive, none)
  match toAsciiLowercase key with
  | "max-age" => { cc with maxAge := value.bind parseF64 }
  | "s-maxage" => { cc with sMaxage := value.bind parseF64 }
  | "no-cache" => { cc with noCache := true }
  | "no-store" => { cc with noStore := true }
  | "must-revalidate" => { cc with mustRevalidate := true }
  | "proxy-revalidate" => { cc with proxyRevalidate := true }
  | "public" => { cc with pub := true }
  | "private" => { cc with priv := true }
  | "immutable" => { cc with immutable := true }
  | "stale-while-revalidate" => { cc with staleWhileRevalidate := value.bind parseF64 }
  | "stale-if-error" => { cc with staleIfError := value.bind parseF64 }
  | _ => cc

def parse (headerValue : String) : CacheControl :=
  (split ',' headerValue).foldl (fun cc d => cc.directive (trim d)) {}

def isUncacheable (cc : CacheControl) : Bool := cc.noStore || cc.priv

example : (parse "max-age=60, Private").isUncacheable = true := by decide +kernel

end CacheControl

end VarahaCache
