import VanillaRtb.Lib.OrderedIndex
import VanillaRtb.StdString

/-! # From a user or a page to campaigns

A location is looked up by its lower-cased city and country and leads to the campaigns
bound to it. Campaigns bound to a domain are kept the same way.
-/

namespace VanillaRtb.Matchers

open Lib

structure Geo where
  geoId : UInt32 := 0
  city : StdString := []
  country : StdString := []
  deriving DecidableEq

/-- A location as `city_country_entity` stores it. -/
structure CityCountryEntity where
  city : StdString := []
  country : StdString := []
  geoId : UInt32 := 0
  deriving DecidableEq

/-- The fields of `unique_city_country_tag`, compared as bytes. -/
def CityCountryEntity.cityCountry (e : CityCountryEntity) : List (List Nat) :=
  [e.city.map UInt8.toNat, e.country.map UInt8.toNat]

abbrev GeoDataEntity := OrderedUnique CityCountryEntity.cityCountry

/-- The location that is found, nothing if there is none. -/
def GeoDataEntity.retrieve (cache : GeoDataEntity) (city country : StdString) : Option Geo :=
  (cache.find [city.map UInt8.toNat, country.map UInt8.toNat]).map fun e =>
    { geoId := e.geoId, city := e.city, country := e.country }

structure GeoCampaign where
  geoId : UInt32 := 0
  campaignId : UInt32 := 0
  deriving DecidableEq

/-- The fields of `geo_id_tag`. -/
def GeoCampaign.key (c : GeoCampaign) : List Nat := [c.geoId.toNat, c.campaignId.toNat]

abbrev GeoCampaignEntity := OrderedUnique GeoCampaign.key

/-- Whether anything matches, and the collection with the matches appended. -/
def GeoCampaignEntity.retrieve (cache : GeoCampaignEntity) (geoCampaigns : List GeoCampaign)
    (geoId : UInt32) : Bool × List GeoCampaign :=
  let found := cache.equalRange [geoId.toNat]
  (!found.isEmpty, geoCampaigns ++ found)

/-- A campaign bound to a domain. -/
structure ICOCampaign where
  domainId : UInt32 := 0
  campaignId : UInt32 := 0
  deriving DecidableEq

/-- The fields of `domain_id_tag`. -/
def ICOCampaign.key (c : ICOCampaign) : List Nat := [c.domainId.toNat, c.campaignId.toNat]

abbrev ICOCampaignEntity := OrderedUnique ICOCampaign.key

/-- Whether anything matches, and the matches. -/
def ICOCampaignEntity.retrieve (cache : ICOCampaignEntity) (domainId : UInt32) :
    Bool × List ICOCampaign :=
  let found := cache.equalRange [domainId.toNat]
  (!found.isEmpty, found)

structure Domain where
  name : StdString := []
  domId : UInt32 := 0
  deriving DecidableEq

/-- The fields of `name_tag`. -/
def Domain.key (d : Domain) : List (List Nat) := [d.name.map UInt8.toNat, [d.domId.toNat]]

abbrev DomainEntity := OrderedUnique Domain.key

/-- The domain of a URL, which `host` takes the host out of where it has one. -/
def DomainEntity.retrieve (cache : DomainEntity) (host : StdString → Option StdString)
    (url : StdString) : Option Domain :=
  (host url).bind fun host => cache.find [host.map UInt8.toNat]

end VanillaRtb.Matchers
